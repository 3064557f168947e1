import GpuLibc.Uring.FewCalls
import GpuLibc.Uring.Reaper
import Mathlib.Data.List.Nodup

/-!
# From the call to the report

The callers and the kernel on one side, and the host thread that calls
`uring_process_completions` on the other, joined by the completion ring: what the kernel completes
it posts there. The kernel completes requests in an order of its own, so the reports come in that
order, each for a call of its own.

* `completionPath`: the two machines side by side.
* `Posted.Inv`: the completions posted, in the order of the requests they complete.
* `completions_reported`: what the host thread sees and prints.
-/

namespace GpuLibc

variable {v : Variant} {w : Reaper} {r : Ring} {q : CqRing} {s₀ s s' : State} {as : List Label}
  {order : List ℕ} {j : ℕ}

/-- The completion of a request. -/
def Request.completion (e : Request) : Cqe := { userData := e.sqe.userData, res := e.sqe.len }

/-- The completion that a call is due: its slot as the cookie, and its number of bytes. -/
def Call.completion (r : Ring) (c : Call) : Cqe :=
  { userData := (r.idx c.tail).toNat, res := c.msg.bytes.length }

theorem Request.completion_eq {e : Request} {c : Call} (h : e.entry = c.entry r) :
    e.completion = c.completion r := by
  rw [completion, sqe_eq h]
  rfl

/-! ## The order of completion -/

namespace Posted

/-- The requests `order` have completed one after the other. -/
structure Inv (s : State) (order : List ℕ) : Prop where
  nodup : order.Nodup
  mem_iff : ∀ (j : ℕ), j ∈ order ↔ ∃ e : Request, s.reqs[j]? = some e ∧ e.completed = true
  posted : s.posted.map some = order.map fun j => s.reqs[j]?.map Request.completion
  text : ∀ e ∈ s.reqs, ∀ text, e.text = some text → text.length = e.sqe.len

namespace Inv

theorem of_init (h : Initial s) : Inv s [] where
  nodup := List.nodup_nil
  mem_iff := by simp [h.reqs]
  posted := by simp [h.posted]
  text := by simp [h.reqs]

/-- Steps that leave requests and completions alone. -/
theorem of_eq (h : Inv s order) (hreqs : s'.reqs = s.reqs) (hposted : s'.posted = s.posted) :
    Inv s' order where
  nodup := h.nodup
  mem_iff := by rw [hreqs]; exact h.mem_iff
  posted := by rw [hreqs, hposted]; exact h.posted
  text := by rw [hreqs]; exact h.text

/-- A request in the order has been taken. -/
theorem lt_of_mem (h : Inv s order) (hj : j ∈ order) : j < s.reqs.length := by
  obtain ⟨e, he, -⟩ := (h.mem_iff j).mp hj
  exact (List.getElem?_eq_some_iff.mp he).1

theorem take (h : Inv s order) (hs : (system v r).step s .take = some s') : Inv s' order := by
  obtain ⟨-, -, rfl⟩ := step_take hs
  refine
    { nodup := h.nodup, mem_iff := fun j => ?mem_iff, posted := ?posted, text := ?text }
  case mem_iff =>
    rw [h.mem_iff]
    constructor
    · rintro ⟨e, he, hcompleted⟩
      exact ⟨e, by rw [List.getElem?_append_left (List.getElem?_eq_some_iff.mp he).1, he],
        hcompleted⟩
    · rintro ⟨e, he, hcompleted⟩
      rcases getElem?_concat_cases he with ⟨-, rfl⟩ | ⟨-, he⟩
      · cases hcompleted
      · exact ⟨e, he, hcompleted⟩
  case posted =>
    show s.posted.map some = _
    rw [h.posted]
    refine List.map_congr_left fun j hj => ?_
    show _ = (s.reqs ++ [_])[j]?.map Request.completion
    rw [List.getElem?_append_left (h.lt_of_mem hj)]
  case text =>
    intro e he text htext
    rcases List.mem_append.mp he with he | he
    · exact h.text e he text htext
    · rw [List.mem_singleton.mp he] at htext
      cases htext

/-- Replacing a request by one with the same entry. -/
theorem completion_set {e : Request} (e' : Request) (he : s.reqs[j]? = some e)
    (hsqe : e'.sqe = e.sqe) (k : ℕ) :
    (s.reqs.set j e')[k]?.map Request.completion = s.reqs[k]?.map Request.completion := by
  have hmap : (s.reqs.set j e').map Request.completion = s.reqs.map Request.completion :=
    map_set_eq he (by rw [Request.completion, Request.completion, hsqe])
  rw [← List.getElem?_map, hmap, List.getElem?_map]

theorem write (h : Inv s order) (hs : (system v r).step s (.write j) = some s') :
    Inv s' order := by
  obtain ⟨e, he, -, rfl⟩ := step_write hs
  have hlt := (List.getElem?_eq_some_iff.mp he).1
  refine
    { nodup := h.nodup, mem_iff := fun k => ?mem_iff, posted := ?posted, text := ?text }
  case mem_iff =>
    rw [h.mem_iff]
    by_cases hk : k = j
    · subst hk
      simp [he, List.getElem?_set_self hlt]
    · simp [List.getElem?_set_ne (Ne.symm hk)]
  case posted =>
    show s.posted.map some = _
    rw [h.posted]
    exact List.map_congr_left fun k _ => (completion_set _ he (by rfl) k).symm
  case text =>
    intro e' he' text htext
    rcases List.mem_or_eq_of_mem_set he' with he' | rfl
    · exact h.text e' he' text htext
    · rw [← Option.some.inj htext, ByteMemory.length_read]

/-- The completion of request `j` is posted last. -/
theorem complete (h : Inv s order) (hs : (system v r).step s (.complete j) = some s') :
    ∃ e : Request, s.reqs[j]? = some e ∧ s'.posted = s.posted ++ [e.completion] ∧
      Inv s' (order ++ [j]) := by
  obtain ⟨e, text, he, htext, hnot, rfl⟩ := step_complete hs
  have hlt := (List.getElem?_eq_some_iff.mp he).1
  have hlen := h.text e (List.mem_of_getElem? he) text htext
  have hcompletion : ({ userData := e.sqe.userData, res := text.length } : Cqe) = e.completion := by
    rw [Request.completion, hlen]
  have hnew : j ∉ order := by
    rw [h.mem_iff]
    rintro ⟨e', he', hcompleted⟩
    obtain rfl : e = e' := Option.some.inj (he.symm.trans he')
    rw [hnot] at hcompleted
    cases hcompleted
  refine ⟨e, he, by rw [hcompletion],
    { nodup := ?nodup, mem_iff := fun k => ?mem_iff, posted := ?posted, text := ?text }⟩
  case nodup =>
    rw [← List.concat_eq_append]
    exact h.nodup.concat hnew
  case mem_iff =>
    rw [List.mem_append, List.mem_singleton, h.mem_iff]
    by_cases hk : k = j
    · subst hk
      simp [List.getElem?_set_self hlt]
    · simp [List.getElem?_set_ne (Ne.symm hk), hk]
  case posted =>
    show (s.posted ++ [_]).map some = _
    rw [List.map_append, List.map_append, h.posted, hcompletion]
    congr 1
    · exact List.map_congr_left fun k _ => (completion_set _ he (by rfl) k).symm
    · have hlast := completion_set { e with completed := true } he rfl j
      rw [List.map_singleton, List.map_singleton, hlast, he, Option.map_some]
  case text =>
    intro e' he' text' htext'
    rcases List.mem_or_eq_of_mem_set he' with he' | rfl
    · exact h.text e' he' text' htext'
    · exact h.text e (List.mem_of_getElem? he) text' htext'

/-- Every step extends the order or leaves it as it is. -/
theorem step {a : Label} (h : Inv s order) (hs : (system v r).step s a = some s') :
    ∃ order', order <+: order' ∧ Inv s' order' := by
  cases a with
  | claim msg => rw [step_claim hs]; exact ⟨order, List.prefix_rfl, h.of_eq rfl rfl⟩
  | call i =>
    obtain ⟨c, sh', c', -, -, rfl⟩ := step_call hs
    exact ⟨order, List.prefix_rfl, h.of_eq rfl rfl⟩
  | take => exact ⟨order, List.prefix_rfl, h.take hs⟩
  | write j => exact ⟨order, List.prefix_rfl, h.write hs⟩
  | complete j =>
    obtain ⟨e, -, -, h'⟩ := h.complete hs
    exact ⟨_, List.prefix_append _ _, h'⟩
  | poller a => rw [step_poller hs]; exact ⟨order, List.prefix_rfl, h.of_eq rfl rfl⟩

/-- In order and with room, the completions are those that the calls are due. -/
theorem posted_eq (h : Inv s order) (hrun : (system v r).Runs (RoomInOrder r) s₀ as s) :
    s.posted.map some = order.map fun j => s.calls[j]?.map (Call.completion r) := by
  rw [h.posted]
  refine List.map_congr_left fun j hj => ?_
  -- request `j` is the entry of call `j`
  obtain ⟨bs, t, hdemo, hmir⟩ := exists_demo_run hrun
  obtain ⟨p, hord⟩ := InOrder.inv_of_runs (hdemo.mono fun _ _ hg => hg.1)
  obtain ⟨e, he, -⟩ := (h.mem_iff j).mp hj
  obtain ⟨d, hd, hentry, -⟩ := hord.exists_call (hmir.reqs ▸ he)
  obtain ⟨c, hc, heq⟩ := hmir.symm.exists_call hd
  rw [he, hc, Option.map_some, Option.map_some,
    Request.completion_eq (hentry.trans (Call.entry_eq r heq.symm))]

end Inv

theorem inv_of_runs {P : State → Label → Prop} (h : (system v r).Runs P s₀ as s) :
    ∃ order, Inv s order :=
  h.invariant (I := fun s => ∃ order, Inv s order) (fun hinit => ⟨[], .of_init hinit⟩)
    fun _ _ _ ⟨_, hinv⟩ _ hs => by
      obtain ⟨order', -, hinv'⟩ := hinv.step hs
      exact ⟨order', hinv'⟩

end Posted

/-! ## Both sides -/

/-- Callers and kernel, and the completion ring with its reader. The count of reaped completions
in the state of callers and kernel plays no role here: the reader's own head takes its place. -/
structure CompletionPath where
  state : State
  cq : Reaping

inductive CompletionPathLabel
  /-- A step of a caller or of the kernel. -/
  | system (a : Label)
  /-- The next step of `uring_process_completions`. -/
  | read
deriving DecidableEq

namespace CompletionPath

/-- A completion is posted into the ring, where it needs a free slot. -/
def post (q : CqRing) (x : CompletionPath) (s : State) : Label → Option CompletionPath
  | .complete _ =>
    s.posted.getLast?.bind fun c => (x.cq.post q c).map fun cq => { state := s, cq }
  | .claim _ | .call _ | .take | .write _ | .poller _ => some { x with state := s }

def step (v : Variant) (w : Reaper) (r : Ring) (q : CqRing) (x : CompletionPath) :
    CompletionPathLabel → Option CompletionPath
  | .system a => (x.state.step v r a).bind fun s => x.post q s a
  | .read => some { x with cq := x.cq.read w q }

/-- The guard of the callers and the kernel. -/
def roomInOrder (r : Ring) (x : CompletionPath) : CompletionPathLabel → Prop
  | .system a => RoomInOrder r x.state a
  | .read => True

instance (r : Ring) (x : CompletionPath) : ∀ a, Decidable (x.roomInOrder r a)
  | .system a => inferInstanceAs (Decidable (RoomInOrder r x.state a))
  | .read => inferInstanceAs (Decidable True)

end CompletionPath

/-- The copy `v` of the routine on the ring `r`, and the copy `w` of `uring_process_completions` on
the completion ring `q`. -/
def completionPath (v : Variant) (w : Reaper) (r : Ring) (q : CqRing) :
    Machine CompletionPath CompletionPathLabel where
  init x := Initial x.state ∧ x.cq.Initial
  step x a := x.step v w r q a

variable {x x' x₀ : CompletionPath} {bs : List CompletionPathLabel}

/-- The reader posts nothing. -/
theorem Reaping.posted_read (w : Reaper) (q : CqRing) (c : Reaping) :
    (c.read w q).posted = c.posted := by
  unfold Reaping.read
  split
  case h_3 => split_ifs <;> rfl
  all_goals rfl

theorem Reaping.posted_post {c c' : Reaping} {e : Cqe} (h : c.post q e = some c') :
    c'.posted = c.posted ++ [e] := by
  obtain ⟨-, rfl⟩ := Reaping.post_eq_some h
  rfl

/-- Only the completion of a request is posted. -/
theorem posted_of_step {a : Label} (ha : ∀ j, a ≠ .complete j)
    (hs : (system v r).step s a = some s') : s'.posted = s.posted := by
  cases a with
  | complete j => exact absurd rfl (ha j)
  | claim msg => rw [step_claim hs]
  | call i => obtain ⟨c, sh', c', -, -, rfl⟩ := step_call hs; rfl
  | take => obtain ⟨-, -, rfl⟩ := step_take hs; rfl
  | write j => obtain ⟨e, -, -, rfl⟩ := step_write hs; rfl
  | poller a => rw [step_poller hs]

/-- What a step does on either side: each is at rest or makes a step of its own, and they agree on
what is posted. -/
theorem CompletionPath.step_cases {a : CompletionPathLabel}
    (hs : (completionPath v w r q).step x a = some x')
    (hposted : x.cq.posted = x.state.posted) :
    (x'.state = x.state ∨ ∃ b, a = .system b ∧ (system v r).step x.state b = some x'.state) ∧
      (x'.cq = x.cq ∨ ∃ b, (reaping w q).step x.cq b = some x'.cq) ∧
      x'.cq.posted = x'.state.posted := by
  cases a with
  | read =>
    obtain rfl := Option.some.inj hs
    exact ⟨.inl rfl, .inr ⟨.read, rfl⟩, (Reaping.posted_read w q x.cq).trans hposted⟩
  | system b =>
    obtain ⟨s, hstep, hpost⟩ := Option.bind_eq_some_iff.mp hs
    by_cases hb : ∃ j, b = .complete j
    · obtain ⟨j, rfl⟩ := hb
      obtain ⟨e, text, -, -, -, hs'⟩ := step_complete (v := v) (r := r) hstep
      obtain ⟨c, hc, hmap⟩ := Option.bind_eq_some_iff.mp hpost
      obtain ⟨cq, hcq, rfl⟩ := Option.map_eq_some_iff.mp hmap
      refine ⟨.inr ⟨_, rfl, hstep⟩, .inr ⟨.post c, hcq⟩, ?_⟩
      -- what goes to the ring is what the step has added
      rw [hs', List.getLast?_concat, Option.some.injEq] at hc
      rw [Reaping.posted_post hcq, hposted, hs', hc]
    · have hne : ∀ j, b ≠ .complete j := fun j heq => hb ⟨j, heq⟩
      obtain rfl : { x with state := s } = x' := by
        cases b with
        | complete j => exact absurd rfl (hne j)
        | _ => exact Option.some.inj hpost
      refine ⟨.inr ⟨_, rfl, hstep⟩, .inl rfl, ?_⟩
      rw [posted_of_step (v := v) (r := r) hne hstep]
      exact hposted

/-- Each side of a run is a run of its own. -/
theorem CompletionPath.exists_runs
    (h : (completionPath v w r q).Runs (CompletionPath.roomInOrder r) x₀ bs x) :
    x.cq.posted = x.state.posted ∧
      (∃ as, (system v r).Runs (RoomInOrder r) x₀.state as x.state) ∧
      ∃ cs, (reaping w q).Runs (fun _ _ => True) x₀.cq cs x.cq := by
  have hstart : (completionPath v w r q).init x₀ → x₀.cq.posted = x₀.state.posted := by
    rintro ⟨hstate, hcq⟩
    rw [hstate.posted, hcq.posted]
  have hposted : x.cq.posted = x.state.posted :=
    h.invariant hstart fun _ _ _ hinv _ hs => (CompletionPath.step_cases hs hinv).2.2
  refine ⟨hposted, ?_, ?_⟩
  · obtain ⟨as, s, hrun, rfl, -⟩ := h.exists_refines (A := system v r) (Q := RoomInOrder r)
      (R := fun x s => x.state = s ∧ x.cq.posted = x.state.posted) (t := x₀.state)
      (fun hinit => ⟨hinit.1, rfl, hstart hinit⟩) <| by
        rintro x a x' s ⟨rfl, heq⟩ hg hs
        obtain ⟨hstate, -, heq'⟩ := CompletionPath.step_cases hs heq
        rcases hstate with hsame | ⟨b, rfl, hstep⟩
        · exact ⟨x.state, .refl, hsame, heq'⟩
        · exact ⟨x'.state, .single hg hstep, rfl, heq'⟩
    exact ⟨as, hrun⟩
  · obtain ⟨cs, c, hrun, rfl, -⟩ := h.exists_refines (A := reaping w q) (Q := fun _ _ => True)
      (R := fun x c => x.cq = c ∧ x.cq.posted = x.state.posted) (t := x₀.cq)
      (fun hinit => ⟨hinit.2, rfl, hstart hinit⟩) <| by
        rintro x a x' c ⟨rfl, heq⟩ - hs
        obtain ⟨-, hcq, heq'⟩ := CompletionPath.step_cases hs heq
        rcases hcq with hsame | ⟨b, hstep⟩
        · exact ⟨x.cq, .refl, hsame, heq'⟩
        · exact ⟨x'.cq, .single trivial hstep, rfl, heq'⟩
    exact ⟨cs, hrun⟩

/-- While calls publish in order and with room, the completion ring carries one completion for each
completed call, with the call's slot and length, in the order in which the kernel completes them;
the host thread visits them in that order, and the printing copy prints a line for each. -/
theorem completions_reported
    (h : (completionPath v w r q).Runs (CompletionPath.roomInOrder r) x₀ bs x) :
    ∃ order : List ℕ, order.Nodup ∧
      (∀ j : ℕ, j ∈ order ↔ ∃ e : Request, x.state.reqs[j]? = some e ∧ e.completed = true) ∧
      x.cq.posted = x.state.posted ∧
      x.cq.posted.map some = (order.map fun j => x.state.calls[j]?.map (Call.completion r)) ∧
      x.cq.visited = x.cq.posted.take x.cq.visited.length ∧
      x.cq.stderr = w.lines x.cq.visited := by
  obtain ⟨hposted, ⟨as, hrun⟩, cs, hreap⟩ := CompletionPath.exists_runs h
  obtain ⟨order, hinv⟩ := Posted.inv_of_runs hrun
  obtain ⟨n, hreader⟩ := reaping_inv hreap
  refine ⟨order, hinv.nodup, hinv.mem_iff, hposted, ?_, hreader.log, hreader.stderr⟩
  rw [hposted, hinv.posted_eq hrun]

/-- Two calls, completed in the opposite order, and the host thread that prints the reports. -/
def reportedTwo : List CompletionPathLabel :=
  (alternatingNoWait.map CompletionPathLabel.system) ++ [.system (.complete 0)] ++
    List.replicate 7 .read

theorem completions_reportedTwo :
    ∃ x : CompletionPath, (completionPath .ioUringSvmCpuOnly .ioUringSvmCpuOnly demoRing
        ⟨5, by decide⟩).Runs (CompletionPath.roomInOrder demoRing) ⟨.afterSetup, aboutToWrap⟩
        reportedTwo x ∧
      x.cq.stderr = ["cqe idx=1 res=1\n", "cqe idx=0 res=1\n"] ∧
      x.cq.posted = x.state.posted ∧ x.cq.visited = x.cq.posted.take x.cq.visited.length := by
  have hinit : (completionPath .ioUringSvmCpuOnly .ioUringSvmCpuOnly demoRing ⟨5, by decide⟩).init
      ⟨.afterSetup, aboutToWrap⟩ := ⟨State.initial_afterSetup, initial_aboutToWrap⟩
  have hrun : (completionPath .ioUringSvmCpuOnly .ioUringSvmCpuOnly demoRing
      ⟨5, by decide⟩).Runs (CompletionPath.roomInOrder demoRing) _ reportedTwo _ :=
    .of_runUnder hinit (by decide +kernel)
  obtain ⟨-, -, -, hposted, -, hvisited, -⟩ := completions_reported hrun
  exact ⟨_, hrun, by decide +kernel, hposted, hvisited⟩

end GpuLibc
