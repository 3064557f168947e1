import GpuLibc.Lib.Fairness
import GpuLibc.Uring.Lifecycle
import GpuLibc.Uring.Overlapping
import GpuLibc.Uring.Progress
import GpuLibc.Uring.Waker

/-!
# Every message gets through

In executions without end, with new calls at any time, every call that has claimed a ticket returns
and its entry is taken, written and completed, as long as the tickets are published in order, the
polling thread is awake again and again, and no party is put off for ever. The polling thread may
go to sleep in between and miss a store of the tail. This holds for all copies, for those without
the wait loop when a call starts to write only with room. In `gpu_svm_demo` the text written is the
message passed if the calls wait, in addition, for the completions in their slots.

* `Attended`: the executions without end that are meant.
* `Attended.of_wakeups`: the thread that calls `io_uring_enter` over and over is enough for the
  polling thread.
* `Admits`: the guards under which a call can go on when those before it are done with.
* `handled_of_attended`, `delivered_of_attended`: what every claim leads to.
-/

namespace GpuLibc

open Machine

variable {v : Variant} {r : Ring} {base : Word} {P : State → Label → Prop} {s₀ s s' t : State}
  {a : Label} {i j p : ℕ} {c c' : Call} {q : Request}

/-- No call, and no part of the kernel's work, is put off for ever. -/
structure Attended (e : (system v r).Execution P) : Prop where
  call : ∀ i, e.Fair (.call i)
  take : e.Fair .take
  write : ∀ j, e.Fair (.write j)
  complete : ∀ j, e.Fair (.complete j)
  /-- The polling thread is awake again and again. -/
  awake : e.LeadsTo (fun _ => True) fun s => s.poller = .polling

/-- The call with index `i` has returned. -/
def Returned (i : ℕ) (s : State) : Prop := ∃ c, s.calls[i]? = some c ∧ c.phase = .returned

/-- The kernel has written the text of the request with index `j`. -/
def Written (j : ℕ) (s : State) : Prop := ∃ q, s.reqs[j]? = some q ∧ q.text ≠ none

/-- The kernel has posted its completion. -/
def Completed (j : ℕ) (s : State) : Prop :=
  ∃ q, s.reqs[j]? = some q ∧ q.text ≠ none ∧ q.completed = true

/-- The call with index `i` has returned, and its entry has been taken, written and completed. -/
def Handled (r : Ring) (i : ℕ) (s : State) : Prop :=
  ∃ c q, s.calls[i]? = some c ∧ c.phase = .returned ∧ s.reqs[i]? = some q ∧
    q.seen = c.submitted r ∧ q.text ≠ none ∧ q.completed = true

/-- The same, and the text written is the message passed. -/
def Delivered (r : Ring) (i : ℕ) (s : State) : Prop :=
  ∃ c q, s.calls[i]? = some c ∧ c.phase = .returned ∧ s.reqs[i]? = some q ∧
    q.entry = c.entry r ∧ q.text = some c.msg.bytes ∧ q.completed = true

/-! ## What a step leaves alone -/

theorem getElem?_calls_step (hs : (system v r).step s a = some s') (ha : a ≠ .call i)
    (hc : s.calls[i]? = some c) : s'.calls[i]? = some c := by
  cases a with
  | claim msg =>
    obtain rfl := step_claim hs
    rwa [List.getElem?_append_left (List.getElem?_eq_some_iff.mp hc).1]
  | call j =>
    obtain ⟨d, sh', d', -, -, rfl⟩ := step_call hs
    have hij : j ≠ i := fun heq => ha (heq ▸ rfl)
    rwa [List.getElem?_set_ne hij]
  | take =>
    obtain ⟨-, -, rfl⟩ := step_take hs
    exact hc
  | write j =>
    obtain ⟨q, -, -, rfl⟩ := step_write hs
    exact hc
  | complete j =>
    obtain ⟨q, _, -, -, -, rfl⟩ := step_complete hs
    exact hc
  | poller a =>
    rw [step_poller hs]
    exact hc

theorem length_reqs_step (hs : (system v r).step s a = some s') :
    s'.reqs.length = s.reqs.length + if a = .take then 1 else 0 := by
  cases a with
  | claim msg =>
    obtain rfl := step_claim hs
    rfl
  | call j =>
    obtain ⟨d, sh', d', -, -, rfl⟩ := step_call hs
    rfl
  | take =>
    obtain ⟨-, -, rfl⟩ := step_take hs
    exact List.length_append
  | write j =>
    obtain ⟨q, -, -, rfl⟩ := step_write hs
    exact List.length_set ..
  | complete j =>
    obtain ⟨q, _, -, -, -, rfl⟩ := step_complete hs
    exact List.length_set ..
  | poller a =>
    rw [step_poller hs]
    rfl

theorem length_reqs_le_step (hs : (system v r).step s a = some s') :
    s.reqs.length ≤ s'.reqs.length := by
  rw [length_reqs_step hs]
  exact Nat.le_add_right _ _

theorem length_calls_step (hs : (system v r).step s a = some s') :
    s.calls.length ≤ s'.calls.length := by
  cases a with
  | claim msg =>
    obtain rfl := step_claim hs
    exact (List.length_append ▸ Nat.le_add_right _ _)
  | call j =>
    obtain ⟨d, sh', d', -, -, rfl⟩ := step_call hs
    exact (List.length_set ..).ge
  | take =>
    obtain ⟨-, -, rfl⟩ := step_take hs
    exact le_rfl
  | write j =>
    obtain ⟨q, -, -, rfl⟩ := step_write hs
    exact le_rfl
  | complete j =>
    obtain ⟨q, _, -, -, -, rfl⟩ := step_complete hs
    exact le_rfl
  | poller a =>
    rw [step_poller hs]

theorem getElem?_reqs_step (hs : (system v r).step s a = some s') (hwrite : a ≠ .write j)
    (hcomplete : a ≠ .complete j) (hq : s.reqs[j]? = some q) : s'.reqs[j]? = some q := by
  cases a with
  | claim msg =>
    obtain rfl := step_claim hs
    exact hq
  | call i =>
    obtain ⟨d, sh', d', -, -, rfl⟩ := step_call hs
    exact hq
  | take =>
    obtain ⟨-, -, rfl⟩ := step_take hs
    rwa [List.getElem?_append_left (List.getElem?_eq_some_iff.mp hq).1]
  | write k =>
    obtain ⟨q', -, -, rfl⟩ := step_write hs
    have hkj : k ≠ j := fun heq => hwrite (heq ▸ rfl)
    rwa [List.getElem?_set_ne hkj]
  | complete k =>
    obtain ⟨q', _, -, -, -, rfl⟩ := step_complete hs
    have hkj : k ≠ j := fun heq => hcomplete (heq ▸ rfl)
    rwa [List.getElem?_set_ne hkj]
  | poller a =>
    rw [step_poller hs]
    exact hq

theorem Returned.step (h : Returned i s) (hs : (system v r).step s a = some s') :
    Returned i s' := by
  obtain ⟨c, hc, hphase⟩ := h
  refine ⟨c, getElem?_calls_step hs ?_ hc, hphase⟩
  -- a call that has returned makes no step
  rintro rfl
  obtain ⟨d, sh', d', hd, hstep, -⟩ := step_call hs
  obtain rfl : c = d := Option.some.inj (hc.symm.trans hd)
  rw [Call.step, hphase] at hstep
  cases hstep

theorem Completed.step (h : Completed j s) (hs : (system v r).step s a = some s') :
    Completed j s' := by
  obtain ⟨q, hq, htext, hcompleted⟩ := h
  refine ⟨q, getElem?_reqs_step hs ?_ ?_ hq, htext, hcompleted⟩
  · -- it is not written a second time
    rintro rfl
    obtain ⟨q', hq', htext', -⟩ := step_write hs
    obtain rfl : q = q' := Option.some.inj (hq.symm.trans hq')
    exact htext htext'
  · -- nor completed
    rintro rfl
    obtain ⟨q', text, hq', -, hnot, -⟩ := step_complete hs
    obtain rfl : q = q' := Option.some.inj (hq.symm.trans hq')
    rw [hcompleted] at hnot
    cases hnot

theorem Completed.lt (h : Completed j s) : j < s.reqs.length := by
  obtain ⟨q, hq, -⟩ := h
  exact (List.getElem?_eq_some_iff.mp hq).1

theorem le_taken_of_completed (h : ∀ j < i, Completed j s) : i ≤ s.reqs.length := by
  cases i with
  | zero => exact Nat.zero_le _
  | succ i => exact (h i (Nat.lt_succ_self i)).lt

/-! ## What the steps rely on -/

/-- The state of the ring, as far as it decides who can go on. -/
structure Flow (r : Ring) (s : State) : Prop where
  taken_le : s.reqs.length ≤ s.published
  published : ∀ (i : ℕ) (c : Call), s.calls[i]? = some c → (c.published = true ↔ i < s.published)
  empty : s.shared.sringHead = s.shared.sringTail ↔ s.reqs.length = s.published
  room : ∀ (i : ℕ) (c : Call), s.calls[i]? = some c → c.published = false →
    i < s.reqs.length + r.entries → hasRoom r s.shared c
  seen : ∀ (j : ℕ) (q : Request), s.reqs[j]? = some q →
    ∃ c : Call, s.calls[j]? = some c ∧ q.seen = c.submitted r

theorem Flow.of_mirrors (hmir : Mirrors s t) (hinv : InOrder.Inv r base t p) : Flow r s := by
  have hp : s.published = p := hmir.published_eq.symm.trans hinv.published_eq
  obtain ⟨flags, hshared⟩ := hmir.shared
  refine { taken_le := ?taken_le, published := ?published, empty := ?empty, room := ?room
           seen := ?seen }
  case taken_le =>
    rw [hp, ← hmir.reqs]
    exact hinv.taken_le
  case published =>
    intro i c hc
    obtain ⟨d, hd, heq⟩ := hmir.exists_call hc
    rw [hp, ← Call.published_eq heq]
    exact hinv.published i d hd
  case empty =>
    have hempty := hinv.head_eq_tail_iff
    rwa [hshared, hmir.reqs, ← hp] at hempty
  case room =>
    intro i c hc hpub hlt
    obtain ⟨d, hd, heq⟩ := hmir.exists_call hc
    rw [← Call.published_eq heq] at hpub
    have hroom := (hinv.hasRoom_iff hd (hinv.taken_le_ticket hd hpub)).mpr (by rwa [hmir.reqs])
    rw [hasRoom, Call.tail_eq heq, hshared] at hroom
    exact hroom
  case seen =>
    intro j q hq
    obtain ⟨d, hd, hentry, -⟩ := hinv.exists_call (hmir.reqs ▸ hq)
    obtain ⟨c, hc, heq⟩ := hmir.symm.exists_call hd
    exact ⟨c, hc, (Request.seen_eq hentry).trans (Call.submitted_eq heq.symm)⟩

/-- A guard that gives tickets in order and room, leaves the kernel alone, and does not hold up a
call when all requests before it have completed. -/
structure Admits (v : Variant) (r : Ring) (P : State → Label → Prop) : Prop where
  paced : ∀ s a, P s a → Paced v r s a
  take : ∀ s, P s .take
  write : ∀ s j, P s (.write j)
  complete : ∀ s j, P s (.complete j)
  call : ∀ s i, Flow r s → (∀ j < i, Completed j s) → Paced v r s (.call i) → P s (.call i)

theorem Admits.of_paced : Admits v r (Paced v r) where
  paced _ _ h := h
  take _ := ⟨⟨trivial, trivial⟩, fun _ => trivial⟩
  write _ _ := ⟨⟨trivial, trivial⟩, fun _ => trivial⟩
  complete _ _ := ⟨⟨trivial, trivial⟩, fun _ => trivial⟩
  call _ _ _ _ h := h

theorem Admits.of_roomInOrder : Admits v r (RoomInOrder r) where
  paced _ _ h := ⟨h.1, fun _ => h.2⟩
  take _ := ⟨⟨trivial, trivial⟩, trivial⟩
  write _ _ := ⟨⟨trivial, trivial⟩, trivial⟩
  complete _ _ := ⟨⟨trivial, trivial⟩, trivial⟩
  call s i _ hdone h := by
    refine ⟨h.1, fun _ => ?_⟩
    have hle := le_taken_of_completed hdone
    have hpos := r.entries_pos
    omega

/-- A slot is released when all requests before the call have completed. -/
theorem Admits.of_released : Admits .gpuSvmDemo r (Released r) where
  paced _ _ h := ⟨h.1, fun hne => absurd rfl hne⟩
  take _ := ⟨⟨trivial, trivial⟩, trivial⟩
  write _ _ := ⟨⟨trivial, trivial⟩, trivial⟩
  complete _ _ := ⟨⟨trivial, trivial⟩, trivial⟩
  call s i hflow hdone h := by
    refine ⟨h.1, fun c hc q hq _ => ?_⟩
    obtain ⟨j, hj⟩ := List.mem_iff_getElem?.mp hq
    -- a call that has not published comes behind all requests
    have hcompleted (hpub : c.published = false) : q.text ≠ none ∧ q.completed = true := by
      have hlt : j < i := by
        by_contra hle
        have hjlt := (List.getElem?_eq_some_iff.mp hj).1
        have htaken := hflow.taken_le
        rw [(hflow.published i c hc).mpr (by omega)] at hpub
        cases hpub
      obtain ⟨q', hq', hdone⟩ := hdone j hlt
      obtain rfl : q = q' := Option.some.inj (hj.symm.trans hq')
      exact hdone
    exact ⟨fun hphase => (hcompleted (by rw [Call.published, hphase])).1,
      fun hphase => (hcompleted (by rw [Call.published, hphase])).2⟩

/-- Every state of the runs that are meant. -/
theorem Flow.of_runs (hP : Admits v r P) {as : List Label} (h : (system v r).Runs P s₀ as s) :
    Flow r s := by
  obtain ⟨q, -, ⟨t, p, hmir, hinv⟩, -⟩ := accepted_of_runs (runs_roomInOrder (h.mono hP.paced))
  exact .of_mirrors hmir hinv

theorem flow_of_execution (hP : Admits v r P) (e : (system v r).Execution P) (n : ℕ) :
    Flow r (e.state n) := by
  obtain ⟨as, hruns⟩ := e.exists_runs n
  exact .of_runs hP hruns

/-! ## The calls -/

/-- The steps that the call with index `i` has left. -/
def State.stepsLeft (i : ℕ) (s : State) : ℕ := (s.calls[i]?.map fun c => c.phase.stepsLeft).getD 0

theorem Phase.stepsLeft_eq_zero_iff {phase : Phase} : phase.stepsLeft = 0 ↔ phase = .returned := by
  cases phase <;> simp [stepsLeft]

theorem State.stepsLeft_eq (hc : s.calls[i]? = some c) : s.stepsLeft i = c.phase.stepsLeft := by
  rw [stepsLeft, hc, Option.map_some, Option.getD_some]

/-- A call can make its next step when all requests before it have completed. -/
theorem Flow.enabled_call (h : Flow r s) (hP : Admits v r P) (hc : s.calls[i]? = some c)
    (hdone : ∀ j < i, Completed j s) (hphase : c.phase ≠ .returned) :
    ∃ sh' c', c.step v r s.shared = some (sh', c') ∧ c'.phase.stepsLeft < c.phase.stepsLeft ∧
      (system v r).Enabled P s (.call i) := by
  have hle := le_taken_of_completed hdone
  have hlt : i < s.reqs.length + r.entries := by
    have hpos := r.entries_pos
    omega
  have hroom : c.phase = .waitRoom → hasRoom r s.shared c := by
    intro hwait
    exact h.room i c hc (by rw [Call.published, hwait]) hlt
  obtain ⟨sh', c', hstep, hless, -⟩ := c.exists_step v r s.shared hphase hroom
  refine ⟨sh', c', hstep, hless, hP.call s i h hdone ⟨⟨trivial, ?_⟩, fun _ _ => hlt⟩, ?_⟩
  · -- the entries of the calls before it have been taken, so they have published
    rintro - d hd
    obtain ⟨j, hj, hd⟩ := getElem?_of_mem_take hd
    exact (h.published j d hd).mpr (hj.trans_le (hle.trans h.taken_le))
  · refine ⟨{ s with shared := sh', calls := s.calls.set i c' }, ?_⟩
    show s.calls[i]?.bind _ = _
    rw [hc, Option.bind_some, hstep]
    rfl

variable {e : (system v r).Execution P}

/-- A call returns when all requests before it have completed. -/
theorem returned_of_attended (hP : Admits v r P) (h : Attended e) (i : ℕ) :
    e.LeadsTo (fun s => i < s.calls.length ∧ ∀ j < i, Completed j s) (Returned i) := by
  have hleads : e.LeadsTo (fun s => i < s.calls.length ∧ ∀ j < i, Completed j s)
      fun s => (i < s.calls.length ∧ ∀ j < i, Completed j s) ∧ s.stepsLeft i = 0 := by
    refine Execution.leadsTo_of_decreasing (State.stepsLeft i) (h.call i) (flow_of_execution hP e)
      ?enabled ?taken ?kept
    case enabled =>
      rintro s hflow ⟨hlt, hdone⟩ hleft
      have hc := List.getElem?_eq_getElem hlt
      rw [State.stepsLeft_eq hc] at hleft
      obtain ⟨-, -, -, -, henabled⟩ :=
        hflow.enabled_call hP hc hdone (mt Phase.stepsLeft_eq_zero_iff.mpr hleft)
      exact henabled
    case taken =>
      rintro s s' hflow ⟨hlt, hdone⟩ hleft - hs
      refine ⟨⟨hlt.trans_le (length_calls_step hs), fun j hj => (hdone j hj).step hs⟩, ?_⟩
      obtain ⟨c, sh', c', hc, hstep, rfl⟩ := step_call hs
      rw [State.stepsLeft_eq hc] at hleft
      obtain ⟨sh'', c'', hstep', hless, -⟩ :=
        hflow.enabled_call hP hc hdone (mt Phase.stepsLeft_eq_zero_iff.mpr hleft)
      obtain ⟨-, rfl⟩ := Prod.mk.inj (Option.some.inj (hstep.symm.trans hstep'))
      rwa [State.stepsLeft_eq hc, State.stepsLeft_eq (List.getElem?_set_self hlt)]
    case kept =>
      rintro s b s' - ⟨hlt, hdone⟩ - - hs hb
      have hc := List.getElem?_eq_getElem hlt
      refine ⟨⟨hlt.trans_le (length_calls_step hs), fun j hj => (hdone j hj).step hs⟩, ?_⟩
      rw [State.stepsLeft_eq hc, State.stepsLeft_eq (getElem?_calls_step hs hb hc)]
  refine hleads.trans (.of_imp ?_)
  rintro s ⟨⟨hlt, -⟩, hleft⟩
  have hc := List.getElem?_eq_getElem hlt
  rw [State.stepsLeft_eq hc] at hleft
  exact ⟨_, hc, Phase.stepsLeft_eq_zero_iff.mp hleft⟩

/-! ## The kernel -/

/-- A returned call whose entry is at the head. -/
def AtHead (i : ℕ) (s : State) : Prop := Returned i s ∧ i = s.reqs.length

theorem Flow.head_ne_tail (h : Flow r s) (hi : AtHead i s) :
    s.shared.sringHead ≠ s.shared.sringTail := by
  obtain ⟨⟨c, hc, hphase⟩, rfl⟩ := hi
  have hlt := (h.published _ c hc).mp (Call.published_of_returned hphase)
  exact fun heq => hlt.ne (h.empty.mp heq)

theorem AtHead.step (h : AtHead i s) (hs : (system v r).step s a = some s') (ha : a ≠ .take) :
    AtHead i s' := by
  obtain ⟨hreturned, rfl⟩ := h
  refine ⟨hreturned.step hs, ?_⟩
  rw [length_reqs_step hs, if_neg ha, Nat.add_zero]

/-- The polling thread does not leave a ring that is not empty. -/
theorem polling_step (hs : (system v r).step s a = some s') (hpolling : s.poller = .polling)
    (hne : s.shared.sringHead ≠ s.shared.sringTail) : s'.poller = .polling := by
  cases a with
  | claim msg => obtain rfl := step_claim hs; exact hpolling
  | call i => obtain ⟨c, sh', c', -, -, rfl⟩ := step_call hs; exact hpolling
  | take => obtain ⟨-, -, rfl⟩ := step_take hs; exact hpolling
  | write j => obtain ⟨q, -, -, rfl⟩ := step_write hs; exact hpolling
  | complete j => obtain ⟨q, _, -, -, -, rfl⟩ := step_complete hs; exact hpolling
  | poller a =>
    change s.pollerStep a = some s' at hs
    cases a with
    | needWakeup =>
      rw [State.pollerStep, if_neg fun h => hne h.2] at hs
      cases hs
    | recheck =>
      rw [State.pollerStep, if_neg (by simp [hpolling])] at hs
      cases hs
    | sleep =>
      rw [State.pollerStep, if_neg (by simp [hpolling])] at hs
      cases hs
    | enterWakeup =>
      obtain rfl := Option.some.inj hs
      rfl

/-- The entry of a returned call is taken once those before it have been taken. -/
theorem taken_of_returned (hP : Admits v r P) (h : Attended e) (i : ℕ) :
    e.LeadsTo (fun s => Returned i s ∧ i ≤ s.reqs.length) fun s => i < s.reqs.length := by
  have hawake := h.awake.and_stable (S := fun s => Returned i s ∧ i ≤ s.reqs.length)
    fun _ _ _ hs _ hstep => ⟨hs.1.step hstep, hs.2.trans (length_reqs_le_step hstep)⟩
  refine .trans (.of_imp fun s hs => ⟨trivial, hs⟩) (hawake.trans (.of_not ?_))
  -- from now on the thread stays awake until it takes the entry
  refine .trans (.of_imp (R := fun s => AtHead i s ∧ s.poller = .polling) ?_)
    (Execution.leadsTo_of_fair h.take (flow_of_execution hP e) ?enabled ?taken ?kept)
  · rintro s ⟨⟨hpolling, hreturned, hle⟩, hnot⟩
    exact ⟨⟨hreturned, hle.antisymm (not_lt.mp hnot)⟩, hpolling⟩
  case enabled =>
    rintro s hflow ⟨hhead, hpolling⟩
    exact ⟨hP.take s, _, if_pos ⟨hpolling, hflow.head_ne_tail hhead⟩⟩
  case taken =>
    rintro s s' - ⟨⟨-, rfl⟩, -⟩ - hs
    rw [length_reqs_step hs, if_pos rfl]
    exact Nat.lt_succ_self _
  case kept =>
    rintro s b s' hflow ⟨hhead, hpolling⟩ - hs hb
    exact .inl ⟨hhead.step hs hb, polling_step hs hpolling (hflow.head_ne_tail hhead)⟩

theorem written_of_attended (hP : Admits v r P) (h : Attended e) (j : ℕ) :
    e.LeadsTo (fun s => j < s.reqs.length) (Written j) := by
  refine .of_not (.trans (.of_imp (R := fun s => ∃ q, s.reqs[j]? = some q ∧ q.text = none) ?_)
    (Execution.leadsTo_of_fair (h.write j) (flow_of_execution hP e) ?enabled ?taken ?kept))
  · rintro s ⟨hlt, hnot⟩
    refine ⟨s.reqs[j], List.getElem?_eq_getElem hlt, ?_⟩
    by_contra htext
    exact hnot ⟨_, List.getElem?_eq_getElem hlt, htext⟩
  case enabled =>
    rintro s - ⟨q, hq, htext⟩
    let written : State :=
      { s with
        reqs := s.reqs.set j
          { q with text := some (ByteMemory.read s.shared.mem q.sqe.addr q.sqe.len) } }
    refine ⟨hP.write s j, written, ?_⟩
    show s.reqs[j]?.bind _ = _
    rw [hq, Option.bind_some, if_pos htext]
  case taken =>
    rintro s s' - - - hs
    obtain ⟨q, hq, -, rfl⟩ := step_write hs
    exact ⟨_, List.getElem?_set_self (List.getElem?_eq_some_iff.mp hq).1, by simp⟩
  case kept =>
    rintro s b s' - ⟨q, hq, htext⟩ - hs hb
    refine .inl ⟨q, getElem?_reqs_step hs hb ?_ hq, htext⟩
    -- a request that has not been written is not completed
    rintro rfl
    obtain ⟨q', text, hq', htext', -⟩ := step_complete hs
    obtain rfl : q = q' := Option.some.inj (hq.symm.trans hq')
    rw [htext] at htext'
    cases htext'

theorem completed_of_written (hP : Admits v r P) (h : Attended e) (j : ℕ) :
    e.LeadsTo (Written j) (Completed j) := by
  refine .of_not (.trans (.of_imp (R := fun s => ∃ q, s.reqs[j]? = some q ∧ q.text ≠ none ∧
    q.completed = false) ?_)
    (Execution.leadsTo_of_fair (h.complete j) (flow_of_execution hP e) ?enabled ?taken ?kept))
  · rintro s ⟨⟨q, hq, htext⟩, hnot⟩
    refine ⟨q, hq, htext, ?_⟩
    by_contra hcompleted
    exact hnot ⟨q, hq, htext, Bool.eq_true_of_not_eq_false hcompleted⟩
  case enabled =>
    rintro s - ⟨q, hq, htext, hcompleted⟩
    obtain ⟨text, htext⟩ := Option.ne_none_iff_exists'.mp htext
    let completed : State :=
      { s with
        reqs := s.reqs.set j { q with completed := true }
        posted := s.posted ++ [{ userData := q.sqe.userData, res := text.length }] }
    refine ⟨hP.complete s j, completed, ?_⟩
    show s.reqs[j]?.bind _ = _
    rw [hq, Option.bind_some, htext, Option.bind_some, if_pos hcompleted]
    simp only [completed, htext]
  case taken =>
    rintro s s' - ⟨q, hq, htext, -⟩ - hs
    obtain ⟨q', _, hq', -, -, rfl⟩ := step_complete hs
    obtain rfl : q = q' := Option.some.inj (hq.symm.trans hq')
    exact ⟨_, List.getElem?_set_self (List.getElem?_eq_some_iff.mp hq).1, htext, rfl⟩
  case kept =>
    rintro s b s' - ⟨q, hq, htext, hcompleted⟩ - hs hb
    refine .inl ⟨q, getElem?_reqs_step hs ?_ hb hq, htext, hcompleted⟩
    -- it is not written a second time
    rintro rfl
    obtain ⟨q', hq', htext', -⟩ := step_write hs
    obtain rfl : q = q' := Option.some.inj (hq.symm.trans hq')
    exact htext htext'

/-- Every call that has claimed a ticket returns, and its request is completed. -/
theorem completed_of_attended (hP : Admits v r P) (h : Attended e) (i : ℕ) :
    e.LeadsTo (fun s => i < s.calls.length) fun s => Completed i s ∧ Returned i s := by
  -- on the tickets, as a call can go on once the requests before it have completed
  induction i using Nat.strong_induction_on with
  | _ i ih =>
    have hbefore : e.LeadsTo (fun s => i < s.calls.length)
        fun s => (∀ j < i, Completed j s) ∧ i < s.calls.length := by
      refine .forall_lt (fun _ _ _ hlt _ hs => hlt.trans_le (length_calls_step hs))
        (fun j _ _ _ hj _ hs => hj.step hs) fun j hj => ?_
      refine .trans (.of_imp fun s hlt => hj.trans hlt) ((ih j hj).trans ?_)
      exact .of_imp fun s hs => hs.1
    have hreturned := (returned_of_attended hP h i).and_stable (S := fun s => i ≤ s.reqs.length)
      fun _ _ _ hle _ hs => hle.trans (length_reqs_le_step hs)
    have hcompleted := ((taken_of_returned hP h i).trans ((written_of_attended hP h i).trans
      (completed_of_written hP h i))).and_stable (S := Returned i)
      fun _ _ _ hi _ hs => hi.step hs
    refine hbefore.trans (.trans (.of_imp ?_) (hreturned.trans (.trans (.of_imp ?_) hcompleted)))
    · rintro s ⟨hdone, hlt⟩
      exact ⟨⟨hlt, hdone⟩, le_taken_of_completed hdone⟩
    · rintro s ⟨hi, hle⟩
      exact ⟨⟨hi, hle⟩, hi⟩

/-- In every execution without end of every copy in which the tickets are published in order, the
polling thread is awake again and again and no party is put off for ever: every call that claims a
ticket returns, and what it submitted is taken, written and completed. -/
theorem handled_of_attended {e : (system v r).Execution (Paced v r)} (h : Attended e) (i : ℕ) :
    e.LeadsTo (fun s => i < s.calls.length) (Handled r i) := by
  intro n hn
  obtain ⟨m, hnm, ⟨q, hq, htext, hcompleted⟩, c, hc, hphase⟩ :=
    completed_of_attended .of_paced h i n hn
  obtain ⟨d, hd, hseen⟩ := (flow_of_execution .of_paced e m).seen i q hq
  obtain rfl : c = d := Option.some.inj (hc.symm.trans hd)
  exact ⟨m, hnm, c, q, hc, hphase, hq, hseen, htext, hcompleted⟩

/-- If the calls of `gpu_svm_demo` also wait for the completions in their slots, every message
passed is written as it was passed. -/
theorem delivered_of_attended {e : (system .gpuSvmDemo r).Execution (Released r)}
    (h : Attended e) (i : ℕ) : e.LeadsTo (fun s => i < s.calls.length) (Delivered r i) := by
  intro n hn
  obtain ⟨m, hnm, ⟨q, hq, htext, hcompleted⟩, c, hc, hphase⟩ :=
    completed_of_attended .of_released h i n hn
  obtain ⟨as, hruns⟩ := e.exists_runs m
  obtain ⟨hinv, p, hord⟩ := Released.inv_of_runs hruns
  obtain ⟨d, hd, hentry, -⟩ := hord.exists_call hq
  obtain rfl : c = d := Option.some.inj (hc.symm.trans hd)
  obtain ⟨text, htext⟩ := Option.ne_none_iff_exists'.mp htext
  have hmsg := hinv.text i q c text hq hc htext
  exact ⟨m, hnm, c, q, hc, hphase, hq, hentry, hmsg ▸ htext, hcompleted⟩

/-! ## Executions that are attended -/

/-- Wake-ups over and over keep the polling thread awake again and again. -/
theorem Attended.of_wakeups (hP : ∀ s, P s (.poller .enterWakeup))
    (hcall : ∀ i, e.Fair (.call i)) (htake : e.Fair .take) (hwrite : ∀ j, e.Fair (.write j))
    (hcomplete : ∀ j, e.Fair (.complete j)) (hwakeup : e.Fair (.poller .enterWakeup)) :
    Attended e := by
  refine ⟨hcall, htake, hwrite, hcomplete, ?_⟩
  refine Execution.leadsTo_of_fair (I := fun _ => True) hwakeup (fun _ => trivial) ?_ ?_ ?_
  · exact fun s _ _ => ⟨hP s, _, rfl⟩
  · rintro s s' - - - hs
    obtain rfl := Option.some.inj hs
    rfl
  · exact fun _ _ _ _ _ _ _ _ => .inl trivial

/-- When everything has drained, only new calls and the idle protocol can make a step. -/
theorem AllDone.step_eq_none (hdone : AllDone s) (hflow : Flow r s) (hclaim : ∀ msg, a ≠ .claim msg)
    (hpoller : ∀ b, a ≠ .poller b) (s' : State) : (system v r).step s a ≠ some s' := by
  intro hs
  cases a with
  | claim msg => exact hclaim msg rfl
  | call i =>
    obtain ⟨c, sh', c', hc, hstep, -⟩ := step_call hs
    rw [Call.step, hdone.quiescent c (List.mem_of_getElem? hc)] at hstep
    cases hstep
  | take =>
    refine (step_take hs).2.1 (hflow.empty.mpr ?_)
    have hle := hflow.taken_le
    have hpub : s.published ≤ s.calls.length := List.countP_le_length
    have htaken := hdone.taken
    omega
  | write j =>
    obtain ⟨q, hq, htext, -⟩ := step_write hs
    exact hdone.written q (List.mem_of_getElem? hq) htext
  | complete j =>
    obtain ⟨q, _, hq, -, hcompleted, -⟩ := step_complete hs
    rw [hdone.completed q (List.mem_of_getElem? hq)] at hcompleted
    cases hcompleted
  | poller b => exact hpoller b rfl

/-- Nobody is put off after a run at whose end everything has drained. -/
theorem attended_ofRuns (hP : Admits v r P) {as : List Label} (h : (system v r).Runs P s₀ as s)
    (hdone : AllDone s) (hpolling : s.poller = .polling) : Attended (Execution.ofRuns h) := by
  have hstuck {a : Label} (hclaim : ∀ msg, a ≠ .claim msg) (hpoller : ∀ b, a ≠ .poller b) :
      (Execution.ofRuns h).Fair a :=
    Execution.fair_ofRuns h fun ⟨_, s', hs⟩ =>
      hdone.step_eq_none (.of_runs hP h) hclaim hpoller s' hs
  refine ⟨fun i => hstuck (by simp) (by simp), hstuck (by simp) (by simp),
    fun j => hstuck (by simp) (by simp), fun j => hstuck (by simp) (by simp), ?_⟩
  rintro n -
  refine ⟨max n as.length, le_max_left _ _, ?_⟩
  rwa [Execution.ofRuns_state h (le_max_right _ _)]

/-- The state after a wake-up, which is always possible. -/
def State.woken (s : State) : State :=
  { s with
    shared := { s.shared with sringFlags := s.shared.sringFlags &&& ~~~ioringSqNeedWakeup }
    poller := .polling }

/-- Nobody is put off after a run at whose end everything has drained when a thread goes on to call
`io_uring_enter` over and over, whatever the polling thread does meanwhile. -/
theorem attended_of_woken (hP : Admits v r P) {as : List Label} (h : (system v r).Runs P s₀ as s)
    (hdone : AllDone s)
    (hwake : ∀ s, P s (.poller .enterWakeup) ∧
      (system v r).step s (.poller .enterWakeup) = some s.woken) :
    Attended (Execution.forever h hwake) := by
  have hstuck {a : Label} (hclaim : ∀ msg, a ≠ .claim msg) (hpoller : ∀ b, a ≠ .poller b) :
      (Execution.forever h hwake).Fair a := by
    refine (Execution.stronglyFair_of_not_enabled as.length fun m hm => ?_).fair
    rintro ⟨-, s', hs⟩
    -- a wake-up leaves nothing to do
    have hdone' : AllDone ((Execution.forever h hwake).state m) :=
      Execution.forever_keeps h hwake hdone
        (fun t ht => ⟨ht.quiescent, ht.taken, ht.written, ht.completed⟩) hm
    exact hdone'.step_eq_none (flow_of_execution hP _ m) hclaim hpoller s' hs
  exact .of_wakeups (fun t => (hwake t).1) (fun i => hstuck (by simp) (by simp))
    (hstuck (by simp) (by simp)) (fun j => hstuck (by simp) (by simp))
    (fun j => hstuck (by simp) (by simp)) (Execution.fair_forever h hwake)

/-- The polling thread sleeps while a call publishes, is woken later, and sleeps again. -/
def wokenLate : List Label :=
  publishedDozing ++ [.claim helloB, .poller .enterWakeup] ++ List.replicate 6 (.call 1) ++
    [.take, .take, .write 1, .complete 1, .write 0, .complete 0, .poller .needWakeup,
      .poller .recheck, .poller .sleep]

theorem handled_wokenLate :
    ∃ (s : State) (e : (system .ioUringCpuMt demoRing).Execution (Paced .ioUringCpuMt demoRing)),
      (system .ioUringCpuMt demoRing).Runs (Paced .ioUringCpuMt demoRing) .afterSetup wokenLate s ∧
      e.state wokenLate.length = s ∧ s.poller = .asleep ∧ Attended e ∧
      ∃ m, Handled demoRing 0 (e.state m) := by
  have hrun : (system .ioUringCpuMt demoRing).Runs (Paced .ioUringCpuMt demoRing)
      .afterSetup wokenLate _ := .of_runUnder State.initial_afterSetup (by decide +kernel)
  have hwake : ∀ s, Paced .ioUringCpuMt demoRing s (.poller .enterWakeup) ∧
      (system .ioUringCpuMt demoRing).step s (.poller .enterWakeup) = some s.woken :=
    fun s => ⟨⟨⟨trivial, trivial⟩, fun _ => trivial⟩, rfl⟩
  have hattended := attended_of_woken .of_paced hrun
    ⟨by decide +kernel, by decide +kernel, by decide +kernel, by decide +kernel⟩ hwake
  have hstate := Execution.forever_state hrun hwake
  obtain ⟨m, -, hm⟩ := handled_of_attended hattended 0 wokenLate.length (by
    rw [hstate]
    decide +kernel)
  exact ⟨_, _, hrun, hstate, by decide +kernel, hattended, m, hm⟩

/-- Seventeen calls of `gpu_svm_demo`, the last one in the slot of the first one. -/
def completedToEnd : List Label := completedCalls ++ [.complete 16]

theorem delivered_completedToEnd :
    ∃ (s : State) (e : (system .gpuSvmDemo demoRing).Execution (Released demoRing)),
      (system .gpuSvmDemo demoRing).Runs (Released demoRing) .afterSetup completedToEnd s ∧
      e.state completedToEnd.length = s ∧ Attended e ∧
      ∃ m, Delivered demoRing 16 (e.state m) := by
  have hrun : (system .gpuSvmDemo demoRing).Runs (Released demoRing) .afterSetup completedToEnd _ :=
    .of_runUnder State.initial_afterSetup (by decide +kernel)
  have hattended : Attended (Execution.ofRuns hrun) :=
    attended_ofRuns .of_released hrun
      ⟨by decide +kernel, by decide +kernel, by decide +kernel, by decide +kernel⟩
      (by decide +kernel)
  have hstate := Execution.ofRuns_state hrun le_rfl
  obtain ⟨m, -, hm⟩ := delivered_of_attended hattended 16 completedToEnd.length (by
    rw [hstate]
    decide +kernel)
  exact ⟨_, _, hrun, hstate, hattended, m, hm⟩

end GpuLibc
