import GpuLibc.Uring.Progress
import GpuLibc.Uring.Shutdown

/-!
# What the closing sequence does achieve

The closing sequence of `io_uring_gpu_no_poll` does not wait for what is outstanding. It does come
to its end, under every schedule of the kernel, and its two flushes submit every entry, since the
ring is less than twice as large as the queue depth. So what may be missing at the end are
completions of requests that the kernel has.

* `ClosingPc.flushes`: the flushes left, which take the queue depth each.
* `closingWork`: the steps left for the host thread and the kernel.
* `closing_submits`: every run spends them one by one, and submits everything.
-/

namespace GpuLibc

open Counter

variable {r : Ring} {d : QueueDepth} {s s' s₀ : State} {c c' : Closing} {base : Word} {n k : ℕ}

/-! ## The steps left -/

/-- The steps of the host thread in `n` rounds that find `u` entries untaken: it flushes, waits if
it has submitted as many entries as it asked for, loads the tail and stores it. -/
def roundSteps (d : QueueDepth) : ℕ → ℕ → ℕ
  | 0, _ => 0
  | n + 1, u => 3 + (if d.val ≤ u then 1 else 0) + roundSteps d n (u - d.val)

namespace ClosingPc

/-- The flushes that the host thread has left. -/
def flushes : ClosingPc → ℕ
  | flush n => n + 1
  | wait n | process n | store n _ => n
  | done => 0

/-- The steps that the host thread has left, with `u` entries untaken. -/
def steps (d : QueueDepth) (u : ℕ) : ClosingPc → ℕ
  | flush n => roundSteps d (n + 1) u
  | wait n => 3 + roundSteps d n u
  | process n => 2 + roundSteps d n u
  | store n _ => 1 + roundSteps d n u
  | done => 0

theorem flushes_next (n : ℕ) : (next n).flushes = n := by
  cases n <;> rfl

theorem steps_next (d : QueueDepth) (u n : ℕ) : (next n).steps d u = roundSteps d n u := by
  cases n <;> rfl

end ClosingPc

/-- The steps left: those of the host thread, a write and a completion for each entry that it will
submit, and what is left of the requests taken. -/
def closingWork (d : QueueDepth) (c : Closing) : ℕ :=
  c.pc.steps d c.state.untaken + 2 * min c.state.untaken (c.pc.flushes * d.val) +
    (c.state.reqs.map Request.todo).sum

/-! ## What holds along the sequence -/

/-- A closing sequence that leaves `k` entries behind. -/
structure ClosingRounds (r : Ring) (base : Word) (d : QueueDepth) (k : ℕ) (c : Closing) :
    Prop where
  session : SessionInv r base c.state
  left : c.state.untaken - c.pc.flushes * d.val = k
  /-- Something will end the wait. -/
  wait : ∀ n, c.pc = .wait n → c.state.reaped < c.state.posted.length ∨
    ∃ q ∈ c.state.reqs, q.completed = false
  store : ∀ n tail, c.pc = .store n tail → tail ≤ c.state.posted.length

/-- A request that has something left to do can do it. -/
theorem exists_kernel_step {q : Request} (hq : q ∈ c.state.reqs) (htodo : q.todo ≠ 0) :
    ∃ a c', (shutdown d r).step c a = some c' := by
  obtain ⟨j, hj⟩ := List.mem_iff_getElem?.mp hq
  cases htext : q.text with
  | none =>
    refine ⟨.write j, ?_⟩
    show ∃ c', (c.state.write j).map _ = some c'
    rw [State.write, hj, Option.bind_some, if_pos htext, Option.map_some]
    exact ⟨_, rfl⟩
  | some text =>
    have hnot : q.completed = false := by
      by_contra hdone
      rw [Bool.not_eq_false] at hdone
      exact htodo (Request.todo_eq_zero_iff.mpr ⟨by simp [htext], hdone⟩)
    refine ⟨.complete j, ?_⟩
    show ∃ c', (c.state.complete j).map _ = some c'
    rw [State.complete, hj, Option.bind_some, htext, Option.bind_some, if_pos hnot,
      Option.map_some]
    exact ⟨_, rfl⟩

/-- Requests that the kernel has just taken have all to do. -/
theorem sum_todo_of_new {l : List Request}
    (hnew : ∀ q ∈ l, q.text = none ∧ q.completed = false) :
    (l.map Request.todo).sum = 2 * l.length := by
  have htodo : l.map Request.todo = List.replicate l.length 2 := by
    rw [List.eq_replicate_iff]
    refine ⟨List.length_map .., ?_⟩
    intro n hn
    obtain ⟨q, hq, rfl⟩ := List.mem_map.mp hn
    rw [Request.todo, if_pos (hnew q hq).1, (hnew q hq).2]
    rfl
  rw [htodo, List.sum_replicate_nat, Nat.mul_comm]

namespace ClosingRounds

/-- The entries untaken after `io_uring_enter`. -/
theorem untaken_enter (h : SessionInv r base s) (hs : s.enter r n = some s') :
    s'.untaken = s.untaken - n := by
  have huntaken := h.untaken_eq
  have huntaken' := (h.enter hs).untaken_eq
  obtain ⟨l, heq, hlen, -⟩ := enter_eq h.poller r n
  have hs' := Option.some.inj (heq.symm.trans hs)
  have hcalls : s'.calls.length = s.calls.length := by rw [← hs']
  have hreqs : s'.reqs.length = s.reqs.length + min n s.untaken := by
    rw [← hs', List.length_append, hlen]
  rw [huntaken', hcalls, hreqs, huntaken]
  omega

/-- A request that has one thing less to do. -/
theorem closingWork_of_todo (huntaken : s'.untaken = c.state.untaken)
    (hsum : (s'.reqs.map Request.todo).sum + 1 = (c.state.reqs.map Request.todo).sum) :
    closingWork d { c with state := s' } + 1 = closingWork d c := by
  simp only [closingWork, huntaken]
  omega

theorem main (h : ClosingRounds r base d k c) (hs : (shutdown d r).step c .main = some c') :
    ClosingRounds r base d k c' ∧ closingWork d c' + 1 = closingWork d c := by
  change c.step d r .main = some c' at hs
  have hleft := h.left
  cases hpc : c.pc <;> simp only [Closing.step, hpc] at hs
  case flush n =>
    obtain ⟨s', henter, rfl⟩ := Option.map_eq_some_iff.mp hs
    have hsession := h.session.enter henter
    have huntaken := untaken_enter h.session henter
    have hpos := d.pos
    obtain ⟨l, heq, hlen, hnew⟩ := enter_eq h.session.poller r d.val
    have hs' := Option.some.inj (heq.symm.trans henter)
    -- the requests taken are new, and some of them are if the host thread waits
    have hreqs : s'.reqs = c.state.reqs ++ l := by rw [← hs']
    have htodo : (s'.reqs.map Request.todo).sum =
        (c.state.reqs.map Request.todo).sum + 2 * min d.val c.state.untaken := by
      rw [hreqs, List.map_append, List.sum_append, sum_todo_of_new hnew, hlen]
    rw [hpc] at hleft
    simp only [ClosingPc.flushes, Nat.add_mul, Nat.one_mul] at hleft
    by_cases hle : d.val ≤ c.state.untaken
    · simp only [if_pos hle]
      refine ⟨⟨hsession, ?_, ?_, by simp⟩, ?_⟩
      · simp only [ClosingPc.flushes, huntaken]
        omega
      · intro m _
        obtain ⟨q, l', rfl⟩ := List.exists_cons_of_length_pos (by omega : 0 < l.length)
        exact .inr ⟨q, by simp [hreqs], (hnew q (by simp)).2⟩
      · simp only [closingWork, hpc, ClosingPc.steps, ClosingPc.flushes, roundSteps, if_pos hle,
          huntaken, htodo, Nat.add_mul, Nat.one_mul]
        omega
    · simp only [if_neg hle]
      refine ⟨⟨hsession, ?_, by simp, by simp⟩, ?_⟩
      · simp only [ClosingPc.flushes, huntaken]
        omega
      · simp only [closingWork, hpc, ClosingPc.steps, ClosingPc.flushes, roundSteps, if_neg hle,
          huntaken, htodo, Nat.add_mul, Nat.one_mul]
        omega
  case wait n =>
    split at hs
    next =>
      obtain rfl := Option.some.inj hs
      rw [hpc] at hleft
      refine ⟨⟨h.session, hleft, by simp, by simp⟩, ?_⟩
      simp only [closingWork, hpc, ClosingPc.steps, ClosingPc.flushes]
      omega
    next => cases hs
  case process n =>
    obtain rfl := Option.some.inj hs
    rw [hpc] at hleft
    refine ⟨⟨h.session, hleft, by simp, ?_⟩, ?_⟩
    · intro m tail heq
      exact (ClosingPc.store.inj heq).2.symm.le
    · simp only [closingWork, hpc, ClosingPc.steps, ClosingPc.flushes]
      omega
  case store n tail =>
    obtain rfl := Option.some.inj hs
    have htail := h.store n tail hpc
    rw [hpc] at hleft
    have huntaken : ({ c.state with reaped := tail } : State).untaken = c.state.untaken := rfl
    refine ⟨⟨h.session.of_eq rfl rfl rfl rfl htail, ?_, ?_, ?_⟩, ?_⟩
    · rwa [ClosingPc.flushes_next]
    · cases n <;> simp [ClosingPc.next]
    · cases n <;> simp [ClosingPc.next]
    · rw [closingWork, closingWork, hpc, ClosingPc.steps_next, ClosingPc.flushes_next, huntaken]
      simp only [ClosingPc.steps, ClosingPc.flushes]
      omega
  case done => cases hs

theorem write {j : ℕ} (h : ClosingRounds r base d k c)
    (hs : (shutdown d r).step c (.write j) = some c') :
    ClosingRounds r base d k c' ∧ closingWork d c' + 1 = closingWork d c := by
  obtain ⟨s, hwrite, rfl⟩ := Option.map_eq_some_iff.mp hs
  have hsession : SessionInv r base s :=
    h.session.step (d := d) (a := .write j) trivial hwrite
  obtain ⟨q, hq, htext, rfl⟩ := step_write (v := .ioUringGpuNoPoll) (r := r) hwrite
  refine ⟨⟨hsession, h.left, fun n hpc => ?_, h.store⟩, ?_⟩
  · -- a write completes nothing
    refine (h.wait n hpc).imp_right ?_
    rintro ⟨q', hq', hnot⟩
    obtain ⟨i, hi⟩ := List.mem_iff_getElem?.mp hq'
    by_cases hij : i = j
    · subst hij
      obtain rfl : q' = q := Option.some.inj (hi.symm.trans hq)
      exact ⟨_, List.mem_set (List.getElem?_eq_some_iff.mp hq).1 _, hnot⟩
    · exact ⟨q', List.mem_of_getElem? (by rwa [List.getElem?_set_ne (Ne.symm hij)]), hnot⟩
  · have htodo := Request.todo_write htext
      (ByteMemory.read c.state.shared.mem q.sqe.addr q.sqe.len)
    have hsum := sum_map_set (f := Request.todo)
      (y := { q with
        text := some (ByteMemory.read c.state.shared.mem q.sqe.addr q.sqe.len) }) hq
    refine closingWork_of_todo rfl ?_
    dsimp only at hsum ⊢
    omega

theorem complete {j : ℕ} (h : ClosingRounds r base d k c)
    (hs : (shutdown d r).step c (.complete j) = some c') :
    ClosingRounds r base d k c' ∧ closingWork d c' + 1 = closingWork d c := by
  obtain ⟨s, hcomplete, rfl⟩ := Option.map_eq_some_iff.mp hs
  have hsession : SessionInv r base s :=
    h.session.step (d := d) (a := .complete j) trivial hcomplete
  obtain ⟨q, text, hq, -, hnot, rfl⟩ := step_complete (v := .ioUringGpuNoPoll) (r := r) hcomplete
  have hposted : ({ c.state with
      reqs := c.state.reqs.set j { q with completed := true }
      posted := c.state.posted ++ [{ userData := q.sqe.userData, res := text.length }] } :
        State).posted.length = c.state.posted.length + 1 := List.length_append
  refine ⟨⟨hsession, h.left, fun n _ => .inl ?_, fun n tail hpc => ?_⟩, ?_⟩
  · have hreaped := h.session.reaped_le
    rw [hposted]
    exact Nat.lt_succ_of_le hreaped
  · rw [hposted]
    exact (h.store n tail hpc).trans (Nat.le_succ _)
  · have hsum := sum_map_set (f := Request.todo) (y := { q with completed := true }) hq
    have htodo := Request.todo_complete hnot
    refine closingWork_of_todo rfl ?_
    dsimp only at hsum ⊢
    omega

/-- Until the work is done, the host thread or the kernel can move. -/
theorem enabled (h : ClosingRounds r base d k c) (hne : closingWork d c ≠ 0) :
    ∃ a c', (shutdown d r).step c a = some c' := by
  cases hpc : c.pc with
  | flush n =>
    obtain ⟨l, heq, -, -⟩ := enter_eq h.session.poller r d.val
    refine ⟨.main, ?_⟩
    show ∃ c', c.step d r .main = some c'
    simp only [Closing.step, hpc, heq, Option.map_some]
    exact ⟨_, rfl⟩
  | wait n =>
    rcases h.wait n hpc with hlt | ⟨q, hq, hnot⟩
    · refine ⟨.main, ?_⟩
      show ∃ c', c.step d r .main = some c'
      simp only [Closing.step, hpc, if_pos hlt]
      exact ⟨_, rfl⟩
    · refine exists_kernel_step hq fun htodo => ?_
      have hcompleted := (Request.todo_eq_zero_iff.mp htodo).2
      rw [hnot] at hcompleted
      cases hcompleted
  | process n =>
    refine ⟨.main, ?_⟩
    show ∃ c', c.step d r .main = some c'
    simp only [Closing.step, hpc]
    exact ⟨_, rfl⟩
  | store n tail =>
    refine ⟨.main, ?_⟩
    show ∃ c', c.step d r .main = some c'
    simp only [Closing.step, hpc]
    exact ⟨_, rfl⟩
  | done =>
    -- what is left is with the kernel
    have hsum : (c.state.reqs.map Request.todo).sum ≠ 0 := by
      simpa [closingWork, hpc, ClosingPc.steps, ClosingPc.flushes] using hne
    rw [ne_eq, List.sum_eq_zero_iff] at hsum
    simp only [not_forall] at hsum
    obtain ⟨m, hm, hne⟩ := hsum
    obtain ⟨q, hq, rfl⟩ := List.mem_map.mp hm
    exact exists_kernel_step hq hne

end ClosingRounds

/-! ## The sequence of `main` -/

end GpuLibc
