import GpuLibc.Uring.Rounds

/-!
# The completion ring

The kernel posts one completion for each request. Only a store to `cring_head` by user code frees
their slots, and nothing in `gpu_svm_demo` performs one, although its set-up computes the pointers
for it. So a context can make as many calls as the completion ring has slots, and no more.
-/

namespace GpuLibc

variable {v : Variant} {r : Ring} {s₀ s s' : State} {as : List Label} {n : ℕ}

/-- The number of completions posted and not yet reaped. -/
def State.unreaped (s : State) : ℕ := s.posted.length - s.reaped

/-- In the runs from `s₀` with at most `n` calls, published in ticket order, the completions fit
into the completion ring. -/
def CompletionsFit (r : Ring) (s₀ : State) (n : ℕ) : Prop :=
  ∀ (s : State) (as : List Label), (system .gpuSvmDemo r).Runs InOrder s₀ as s →
    s.calls.length ≤ n → s.unreaped ≤ r.cqEntries

/-- The completions posted are those of the completed requests. -/
def PostedOnce (s : State) : Prop := s.posted.length = s.reqs.countP Request.completed

/-- Every step posts a completion exactly when it completes a request. -/
theorem PostedOnce.step {a : Label} (h : PostedOnce s) (hs : (system v r).step s a = some s') :
    PostedOnce s' := by
  unfold PostedOnce at *
  cases a with
  | claim msg => rw [step_claim hs, h]
  | call i =>
    obtain ⟨c, sh', c', -, -, rfl⟩ := step_call hs
    exact h
  | take =>
    obtain ⟨-, -, rfl⟩ := step_take hs
    rw [h, List.countP_append]
    rfl
  | write j =>
    obtain ⟨q, hq, -, rfl⟩ := step_write hs
    obtain ⟨hlt, rfl⟩ := List.getElem?_eq_some_iff.mp hq
    -- the request is replaced by one that counts the same
    have hpos : s.reqs[j].completed = true → 0 < s.reqs.countP Request.completed := fun hc =>
      List.countP_pos_iff.mpr ⟨_, List.getElem_mem hlt, hc⟩
    rw [List.countP_set hlt, h]
    show _ = _ + if s.reqs[j].completed = true then 1 else 0
    split
    · have := hpos ‹_›
      omega
    · rfl
  | complete j =>
    -- one more completion, and one more completed request
    obtain ⟨q, _, hq, -, hnot, rfl⟩ := step_complete hs
    obtain ⟨hlt, rfl⟩ := List.getElem?_eq_some_iff.mp hq
    rw [List.countP_set hlt, hnot, List.length_append, h]
    rfl
  | poller a =>
    rw [step_poller hs]
    exact h

/-- A run posts at most one completion for each request, and user code reaps none. -/
theorem unreaped_le {P : State → Label → Prop} (h : (system v r).Runs P s₀ as s) :
    s.unreaped ≤ s.reqs.length := by
  have hposted : PostedOnce s :=
    h.invariant (fun hinit => by simp [PostedOnce, hinit.posted, hinit.reqs])
      fun _ _ _ hinv _ hs => hinv.step hs
  have hle : s.reqs.countP Request.completed ≤ s.reqs.length := List.countP_le_length
  rw [State.unreaped, hposted]
  omega

/-- The completion ring never overflows exactly as long as there are at most as many calls as it
has slots. -/
theorem completionsFit_iff (r : Ring) (s₀ : State) (hinit : Initial s₀) (n : ℕ) :
    CompletionsFit r s₀ n ↔ n ≤ r.cqEntries := by
  constructor
  · intro hfit
    -- after `n` rounds there are `n` completions that nobody has reaped
    obtain ⟨s, hreach, hidle⟩ := exists_idle (v := .gpuSvmDemo) (r := r) hinit helloA n
    obtain ⟨as, hrun⟩ := (Machine.Runs.start hinit).exists_of_reaches hreach
    have hsequential := hrun.mono fun _ _ hg => hg.1
    have hle := hfit s as (runs_inOrder_of_sequential hsequential) hidle.calls.le
    rw [State.unreaped, hidle.posted, hidle.reaped] at hle
    exact hle
  · intro hn s as hrun hcalls
    obtain ⟨p, hinv⟩ := InOrder.inv_of_runs hrun
    calc s.unreaped
        ≤ s.reqs.length := unreaped_le hrun
      _ ≤ p := hinv.taken_le
      _ ≤ s.calls.length := hinv.le_claimed
      _ ≤ r.cqEntries := hcalls.trans hn

theorem completionsFit_demoRing : CompletionsFit demoRing .afterSetup 32 :=
  (completionsFit_iff demoRing .afterSetup State.initial_afterSetup 32).mpr le_rfl

/-- With one call more than the completion ring has slots, it overflows. -/
theorem exists_overflow : ¬ ∀ (r : Ring) (s₀ s : State) (as : List Label),
    (system .gpuSvmDemo r).Runs sequential s₀ as s → s.unreaped ≤ r.cqEntries := by
  intro h
  have hrun := h demoRing .afterSetup _ (rounds 33)
    (.of_runUnder State.initial_afterSetup (by decide +kernel))
  exact absurd hrun (by decide +kernel)

end GpuLibc
