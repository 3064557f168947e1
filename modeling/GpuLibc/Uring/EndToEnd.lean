import GpuLibc.Uring.Liveness
import GpuLibc.Uring.ReaperLiveness

/-!
# From the call to the report

Callers, kernel and the host thread that processes completions, in executions without end with new
calls at any time. The kernel posts a completion only when the ring has room for it, so it can be
held up; the host thread makes room again and again. Every call that claims a ticket returns, and
its completion is reported in its turn.

* `systemSide`, `reapingSide`: the two parts of an execution.
* `CompletionPath.Attended`: the executions that are meant.
* `reported_of_attended`: every claim leads to a report.
-/

namespace GpuLibc

open Machine

variable {v : Variant} {w : Reaper} {r : Ring} {q : CqRing} {x x' : CompletionPath}
  {a : CompletionPathLabel} {b : Label} {i : ℕ}

/-! ## The parts of an execution -/

namespace CompletionPath

/-- The step of callers or kernel. -/
def systemLabel : CompletionPathLabel → Option Label
  | .system a => some a
  | .read => none

/-- The step at the completion ring. -/
def reapingLabel (v : Variant) (r : Ring) (x : CompletionPath) :
    CompletionPathLabel → Option ReapingLabel
  | .read => some .read
  -- the completion that goes to the ring is the one that the step adds
  | .system (.complete j) =>
    ((x.state.step v r (.complete j)).bind fun s => s.posted.getLast?).map .post
  | .system (.claim _) | .system (.call _) | .system .take | .system (.write _)
  | .system (.poller _) => none

theorem step_system (hs : (completionPath v w r q).step x (.system b) = some x') :
    (system v r).step x.state b = some x'.state := by
  obtain ⟨s, hstep, hpost⟩ := Option.bind_eq_some_iff.mp hs
  suffices heq : s = x'.state from heq ▸ hstep
  cases b with
  | complete j =>
    obtain ⟨c, -, hmap⟩ := Option.bind_eq_some_iff.mp hpost
    obtain ⟨cq, -, rfl⟩ := Option.map_eq_some_iff.mp hmap
    rfl
  | _ =>
    obtain rfl := Option.some.inj hpost
    rfl

/-- What goes to the ring. -/
theorem post_of_complete {j : ℕ}
    (hs : (completionPath v w r q).step x (.system (.complete j)) = some x') :
    ∃ c, reapingLabel v r x (.system (.complete j)) = some (.post c) ∧
      x.cq.post q c = some x'.cq := by
  obtain ⟨s, hstep, hpost⟩ := Option.bind_eq_some_iff.mp hs
  obtain ⟨c, hc, hmap⟩ := Option.bind_eq_some_iff.mp hpost
  obtain ⟨cq, hcq, rfl⟩ := Option.map_eq_some_iff.mp hmap
  exact ⟨c, by rw [reapingLabel, hstep, Option.bind_some, hc, Option.map_some], hcq⟩

theorem cq_of_step (hs : (completionPath v w r q).step x a = some x')
    (hlabel : reapingLabel v r x a = none) : x'.cq = x.cq := by
  cases a with
  | read => cases hlabel
  | system b =>
    obtain ⟨s, -, hpost⟩ := Option.bind_eq_some_iff.mp hs
    cases b with
    | complete j =>
      obtain ⟨c, hc, -⟩ := post_of_complete hs
      rw [hc] at hlabel
      cases hlabel
    | _ =>
      obtain rfl := Option.some.inj hpost
      rfl

theorem step_reaping {c : ReapingLabel} (hs : (completionPath v w r q).step x a = some x')
    (hlabel : reapingLabel v r x a = some c) : (reaping w q).step x.cq c = some x'.cq := by
  cases a with
  | read =>
    obtain rfl := Option.some.inj hlabel
    obtain rfl := Option.some.inj hs
    rfl
  | system b =>
    cases b with
    | complete j =>
      obtain ⟨c', hpost, hcq⟩ := post_of_complete hs
      obtain rfl := Option.some.inj (hpost.symm.trans hlabel)
      exact hcq
    | _ => cases hlabel

/-- The completion ring holds up nothing but completions. -/
theorem enabled_system (hb : ∀ j, b ≠ .complete j)
    (h : (system v r).Enabled (RoomInOrder r) x.state b) :
    (completionPath v w r q).Enabled (roomInOrder r) x (.system b) := by
  obtain ⟨hg, s, hs⟩ := h
  refine ⟨hg, { x with state := s }, ?_⟩
  show (x.state.step v r b).bind _ = _
  change x.state.step v r b = some s at hs
  rw [hs, Option.bind_some]
  cases b with
  | complete j => exact absurd rfl (hb j)
  | _ => rfl

/-- Nor those when it has room. -/
theorem enabled_complete {j : ℕ}
    (h : (system v r).Enabled (RoomInOrder r) x.state (.complete j))
    (hroom : (x.cq.cringTail - x.cq.cringHead).toNat < q.size) :
    (completionPath v w r q).Enabled (roomInOrder r) x (.system (.complete j)) := by
  obtain ⟨hg, s, hs⟩ := h
  obtain ⟨e, text, -, -, -, hposted⟩ := step_complete hs
  have hlast : s.posted.getLast? = some { userData := e.sqe.userData, res := text.length } := by
    rw [hposted, List.getLast?_concat]
  obtain ⟨cq, hcq⟩ : ∃ cq, x.cq.post q { userData := e.sqe.userData, res := text.length } =
      some cq := ⟨_, if_pos hroom⟩
  refine ⟨hg, { state := s, cq }, ?_⟩
  show (x.state.step v r (.complete j)).bind _ = _
  change x.state.step v r (.complete j) = some s at hs
  rw [hs, Option.bind_some, post, hlast, Option.bind_some, hcq, Option.map_some]

end CompletionPath

/-- What callers and kernel see of an execution. -/
def systemSide (e : (completionPath v w r q).Execution (CompletionPath.roomInOrder r)) :
    (system v r).Execution (RoomInOrder r) :=
  e.part CompletionPath.state (fun _ => CompletionPath.systemLabel) (fun _ hinit => hinit.1)
    (fun x a x' hs hlabel => by
      cases a with
      | system b => cases hlabel
      | read =>
        obtain rfl := Option.some.inj hs
        rfl)
    (fun x a x' b hg hs hlabel => by
      cases a with
      | system b' =>
        obtain rfl := Option.some.inj hlabel
        exact ⟨hg, CompletionPath.step_system hs⟩
      | read => cases hlabel)

/-- What the completion ring sees of it. -/
def reapingSide (e : (completionPath v w r q).Execution (CompletionPath.roomInOrder r)) :
    (reaping w q).Execution fun _ _ => True :=
  e.part CompletionPath.cq (CompletionPath.reapingLabel v r) (fun _ hinit => hinit.2)
    (fun _ _ _ hs hlabel => CompletionPath.cq_of_step hs hlabel)
    (fun _ _ _ _ _ hs hlabel => ⟨trivial, CompletionPath.step_reaping hs hlabel⟩)

variable {e : (completionPath v w r q).Execution (CompletionPath.roomInOrder r)}

/-- No call, no part of the kernel's work and no step of the host thread is put off for ever. -/
structure CompletionPath.Attended
    (e : (completionPath v w r q).Execution (CompletionPath.roomInOrder r)) : Prop where
  call : ∀ i, e.Fair (.system (.call i))
  take : e.Fair (.system .take)
  write : ∀ j, e.Fair (.system (.write j))
  /-- A completion may have to wait for room, which others may take first. -/
  complete : ∀ j, e.StronglyFair (.system (.complete j))
  read : e.Fair .read
  /-- The polling thread is awake again and again. -/
  awake : e.LeadsTo (fun _ => True) fun x => x.state.poller = .polling

namespace CompletionPath.Attended

theorem fair_read (h : Attended e) : (reapingSide e).Fair .read :=
  Execution.fair_part (fun _ => rfl) h.read fun _ _ => ⟨trivial, _, rfl⟩

/-- Callers and kernel are not put off for ever, since the host thread makes room. -/
theorem attended_systemSide (h : Attended e) : GpuLibc.Attended (systemSide e) := by
  refine ⟨fun i => ?call, ?take, fun j => ?write, fun j => ?complete, h.awake⟩
  case call =>
    exact Execution.fair_part (fun _ => rfl) (h.call i) fun _ => enabled_system (by simp)
  case take => exact Execution.fair_part (fun _ => rfl) h.take fun _ => enabled_system (by simp)
  case write =>
    exact Execution.fair_part (fun _ => rfl) (h.write j) fun _ => enabled_system (by simp)
  case complete =>
    refine Execution.fair_part_of_stronglyFair (fun _ => rfl) (h.complete j) fun n hall => ?_
    obtain ⟨m, hm, hroom⟩ := room_of_fair h.fair_read n trivial
    exact ⟨m, hm, enabled_complete (hall m hm) hroom⟩

end CompletionPath.Attended

/-! ## The report -/

/-- The call with index `i` has returned and is among the calls `order` whose completions have been
visited, in this order; the printing copy has printed a line for each. -/
def Reported (w : Reaper) (r : Ring) (i : ℕ) (x : CompletionPath) : Prop :=
  Returned i x.state ∧ ∃ order : List ℕ, i ∈ order ∧ order.Nodup ∧
    x.cq.visited.map some = (order.map fun j => x.state.calls[j]?.map (Call.completion r)) ∧
    x.cq.stderr = w.lines x.cq.visited

/-- The completion of request `i` is among the first `n` ones. -/
def PostedBy (i n : ℕ) (s : State) : Prop := ∃ order, Posted.Inv s order ∧ i ∈ order.take n

theorem PostedBy.step {n : ℕ} {s s' : State} (h : PostedBy i n s)
    (hs : (system v r).step s b = some s') : PostedBy i n s' := by
  obtain ⟨order, hinv, hmem⟩ := h
  obtain ⟨order', hprefix, hinv'⟩ := hinv.step hs
  obtain ⟨rest, rfl⟩ := hprefix
  refine ⟨_, hinv', ?_⟩
  rw [List.take_append]
  exact List.mem_append_left _ hmem

/-- What has been posted when call `i` was completed is visited, and then call `i` is reported. -/
theorem reported_of_postedBy {n m : ℕ} (hreturned : Returned i (e.state m).state)
    (hposted : PostedBy i n (e.state m).state) (hn : n ≤ (e.state m).cq.visited.length) :
    Reported w r i (e.state m) := by
  obtain ⟨bs, hruns⟩ := e.exists_runs m
  obtain ⟨heq, ⟨as, hrun⟩, cs, hreap⟩ := CompletionPath.exists_runs hruns
  obtain ⟨order, hinv, hmem⟩ := hposted
  obtain ⟨f, hreader⟩ := reaping_inv hreap
  refine ⟨hreturned, order.take (e.state m).cq.visited.length, ?_, ?_, ?_, hreader.stderr⟩
  · exact List.take_subset_take_left _ hn hmem
  · exact hinv.nodup.sublist (List.take_sublist _ _)
  · -- the completions visited are the first ones posted
    have hlog := hreader.log
    rw [heq] at hlog
    calc (e.state m).cq.visited.map some
        = ((e.state m).state.posted.take (e.state m).cq.visited.length).map some :=
          congrArg _ hlog
      _ = _ := by rw [List.map_take, hinv.posted_eq hrun, List.map_take]

/-- In every execution without end in which callers, kernel and host thread are not put off for
ever, every call that claims a ticket returns, and its completion is reported in its turn. -/
theorem reported_of_attended (h : CompletionPath.Attended e) (i : ℕ) :
    e.LeadsTo (fun x => i < x.state.calls.length) (Reported w r i) := by
  intro n hn
  -- the kernel posts the completion
  obtain ⟨m, hnm, ⟨f, hf, -, hcompleted⟩, hreturned⟩ :=
    completed_of_attended .of_roomInOrder h.attended_systemSide i n hn
  obtain ⟨bs, hruns⟩ := e.exists_runs m
  obtain ⟨hposted, ⟨as, hrun⟩, -⟩ := CompletionPath.exists_runs hruns
  obtain ⟨order, hinv⟩ := Posted.inv_of_runs hrun
  have hmem : i ∈ order := (hinv.mem_iff i).mpr ⟨f, hf, hcompleted⟩
  have hlen : (e.state m).cq.posted.length = order.length := by
    rw [hposted, ← List.length_map (f := some), hinv.posted, List.length_map]
  have hpos := List.length_pos_of_mem hmem
  have hby : PostedBy i order.length (e.state m).state :=
    ⟨order, hinv, by rwa [List.take_length]⟩
  -- the host thread visits everything posted by then
  have hlast : order.length - 1 < (e.state m).cq.posted.length := by omega
  obtain ⟨l, hml, hvisited, -⟩ := visited_of_fair h.fair_read _ m hlast
  have hreturned' : Returned i (e.state l).state :=
    (systemSide e).stays (fun _ _ _ hi _ hs => hi.step hs) hreturned hml
  have hby' : PostedBy i order.length (e.state l).state :=
    (systemSide e).stays (fun _ _ _ hi _ hs => hi.step hs) hby hml
  have hle : order.length ≤ (e.state l).cq.visited.length := Nat.le_of_pred_lt hvisited
  exact ⟨l, hnm.trans hml, reported_of_postedBy hreturned' hby' hle⟩

/-! ## An execution that is attended -/

/-- The host thread makes a step. -/
def CompletionPath.read (w : Reaper) (q : CqRing) (x : CompletionPath) : CompletionPath :=
  { x with cq := x.cq.read w q }

/-- It always can. -/
theorem CompletionPath.step_read (v : Variant) (w : Reaper) (r : Ring) (q : CqRing)
    (x : CompletionPath) :
    roomInOrder r x .read ∧ (completionPath v w r q).step x .read = some (x.read w q) :=
  ⟨trivial, rfl⟩

/-- After a run at whose end everything has drained, the host thread goes on for ever. -/
theorem attended_forever {x₀ : CompletionPath} {bs : List CompletionPathLabel}
    (h : (completionPath v w r q).Runs (CompletionPath.roomInOrder r) x₀ bs x)
    (hdone : AllDone x.state) (hpolling : x.state.poller = .polling) :
    CompletionPath.Attended (Execution.forever h (CompletionPath.step_read v w r q)) := by
  obtain ⟨-, ⟨as, hrun⟩, -⟩ := CompletionPath.exists_runs h
  have hstate (m : ℕ) (hm : bs.length ≤ m) :
      ((Execution.forever h (CompletionPath.step_read v w r q)).state m).state = x.state :=
    Execution.forever_keeps (Q := fun y : CompletionPath => y.state = x.state) h
      (CompletionPath.step_read v w r q) rfl (fun _ hy => hy) hm
  have hstuck {b : Label} (hclaim : ∀ msg, b ≠ .claim msg) (hpoller : ∀ c, b ≠ .poller c) :
      (Execution.forever h (CompletionPath.step_read v w r q)).StronglyFair (.system b) := by
    refine Execution.stronglyFair_of_not_enabled bs.length fun m hm => ?_
    rintro ⟨-, x', hs⟩
    have hs' := CompletionPath.step_system hs
    rw [hstate m hm] at hs'
    exact hdone.step_eq_none (.of_runs .of_roomInOrder hrun) hclaim hpoller _ hs'
  refine ⟨fun i => (hstuck (by simp) (by simp)).fair, (hstuck (by simp) (by simp)).fair,
    fun j => (hstuck (by simp) (by simp)).fair, fun j => hstuck (by simp) (by simp),
    Execution.fair_forever h _, ?_⟩
  rintro n -
  refine ⟨max n bs.length, le_max_left _ _, ?_⟩
  show ((Execution.forever h _).state _).state.poller = .polling
  rwa [hstate _ (le_max_right _ _)]

/-- Two calls that overlap, completed in the opposite order. -/
def completedTwo : List CompletionPathLabel :=
  alternatingNoWait.map CompletionPathLabel.system ++ [.system (.complete 0)]

theorem reported_completedTwo :
    ∃ (x : CompletionPath) (e : (completionPath .ioUringSvmCpuOnly .ioUringSvmCpuOnly demoRing
        ⟨5, by decide⟩).Execution (CompletionPath.roomInOrder demoRing)),
      (completionPath .ioUringSvmCpuOnly .ioUringSvmCpuOnly demoRing ⟨5, by decide⟩).Runs
        (CompletionPath.roomInOrder demoRing) ⟨.afterSetup, aboutToWrap⟩ completedTwo x ∧
      e.state completedTwo.length = x ∧ CompletionPath.Attended e ∧
      ∃ m, Reported .ioUringSvmCpuOnly demoRing 0 (e.state m) := by
  have hinit : (completionPath .ioUringSvmCpuOnly .ioUringSvmCpuOnly demoRing ⟨5, by decide⟩).init
      ⟨.afterSetup, aboutToWrap⟩ := ⟨State.initial_afterSetup, initial_aboutToWrap⟩
  have hrun : (completionPath .ioUringSvmCpuOnly .ioUringSvmCpuOnly demoRing
      ⟨5, by decide⟩).Runs (CompletionPath.roomInOrder demoRing) _ completedTwo _ :=
    .of_runUnder hinit (by decide +kernel)
  have hattended := attended_forever hrun
    ⟨by decide +kernel, by decide +kernel, by decide +kernel, by decide +kernel⟩
    (by decide +kernel)
  have hstate := Execution.forever_state hrun
    (CompletionPath.step_read .ioUringSvmCpuOnly .ioUringSvmCpuOnly demoRing ⟨5, by decide⟩)
  obtain ⟨m, -, hm⟩ := reported_of_attended hattended 0 completedTwo.length (by
    rw [hstate]
    decide +kernel)
  exact ⟨_, _, hrun, hstate, hattended, m, hm⟩

end GpuLibc
