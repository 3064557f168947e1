import GpuLibc.Uring.Poller
import GpuLibc.Uring.PublishedTail

/-!
# Waking the polling thread

`io_uring_cpu_mt` has a thread that calls `io_uring_enter` with `IORING_ENTER_SQ_WAKEUP` over and
over, without looking at the flag word, and `uring_flush` does the same once. As long as no store
of the tail takes it back, such a wake-up makes up for the test that `uring_perror` lacks: what is
published before it is taken before the polling thread sleeps again.
-/

namespace GpuLibc

open Counter

variable {v : Variant} {r : Ring} {base : Word} {s₀ s₁ s₂ s s' : State} {as bs : List Label}
  {n p i : ℕ}

/-- The call has published, and a polling thread past its last look has taken its entry. -/
structure SeenBeforeSleep (i : ℕ) (s : State) : Prop where
  published : ∃ c : Call, s.calls[i]? = some c ∧ c.published = true
  taken : s.poller.pastRecheck = true → i < s.reqs.length

/-- Calls do not take their stores back. -/
theorem published_of_step {a : Label} (hs : (system v r).step s a = some s')
    (h : ∃ c : Call, s.calls[i]? = some c ∧ c.published = true) :
    ∃ c : Call, s'.calls[i]? = some c ∧ c.published = true := by
  obtain ⟨c, hc, hpub⟩ := h
  have hlt := (List.getElem?_eq_some_iff.mp hc).1
  cases a with
  | claim msg =>
    obtain rfl := step_claim hs
    exact ⟨c, by rw [List.getElem?_append_left hlt, hc], hpub⟩
  | call j =>
    obtain ⟨d, sh', d', hd, hstep, rfl⟩ := step_call hs
    by_cases hij : i = j
    · subst hij
      obtain rfl : c = d := Option.some.inj (hc.symm.trans hd)
      exact ⟨d', List.getElem?_set_self hlt, (Call.step_published hstep).mpr (.inl hpub)⟩
    · exact ⟨c, by rw [List.getElem?_set_ne (Ne.symm hij), hc], hpub⟩
  | take => obtain ⟨-, -, rfl⟩ := step_take hs; exact ⟨c, hc, hpub⟩
  | write j => obtain ⟨q, -, -, rfl⟩ := step_write hs; exact ⟨c, hc, hpub⟩
  | complete j => obtain ⟨q, _, -, -, -, rfl⟩ := step_complete hs; exact ⟨c, hc, hpub⟩
  | poller a => rw [step_poller hs]; exact ⟨c, hc, hpub⟩

namespace Forward.Inv

/-- The counters agree only when the kernel has come up with the furthest store. -/
theorem eq_of_empty (h : Inv n base s p) (hn : n < 2 ^ 32)
    (hempty : s.shared.sringHead = s.shared.sringTail) :
    s.reqs.length = p := by
  have htaken := h.taken_le
  have hclaimed := h.le_claimed
  have hout := h.outstanding
  have heq : after base p = after base s.reqs.length := by rw [← h.head, ← h.tail, hempty]
  -- the two counters are less than `2 ^ 32` apart
  exact (after_injective_of_lt htaken (by omega) heq).symm

/-- An awake polling thread takes everything up to the furthest store, one entry after the
other. -/
theorem exists_takes (h : Inv n base s p) (hn : n < 2 ^ 32) (hpoller : s.poller = .polling) :
    ∃ k t, (system v r).run s (List.replicate k .take) = some t ∧ t.reqs.length = p := by
  have htaken := h.taken_le
  induction hk : p - s.reqs.length generalizing s with
  | zero => exact ⟨0, s, rfl, by omega⟩
  | succ k ih =>
    have hne : s.shared.sringHead ≠ s.shared.sringTail := by
      intro heq
      have hlen := h.eq_of_empty hn heq
      omega
    have hs : (system v r).step s .take = some _ := if_pos ⟨hpoller, hne⟩
    have hlen : (s.reqs ++ [s.nextRequest r]).length = s.reqs.length + 1 := List.length_append
    have hnext := h.take hs
    obtain ⟨m, t, hrun, ht⟩ := ih hnext hpoller hnext.taken_le (by
      show p - (s.reqs ++ [s.nextRequest r]).length = k
      omega)
    exact ⟨m + 1, t, by rw [List.replicate_succ, Machine.run, hs, Option.bind_some, hrun], ht⟩

end Forward.Inv

namespace SeenBeforeSleep

/-- The last look of the polling thread finds the ring empty, and then it has taken the entry. -/
theorem poller {a : PollerStep} (h : SeenBeforeSleep i s) (hinv : Forward.Inv n base s p)
    (hn : n < 2 ^ 32) (hs : (system v r).step s (.poller a) = some s') : SeenBeforeSleep i s' := by
  refine ⟨published_of_step hs h.published, fun hpast => ?_⟩
  have hreqs : s'.reqs = s.reqs := by rw [step_poller hs]
  rw [hreqs]
  change s.pollerStep a = some s' at hs
  cases a with
  | needWakeup =>
    simp only [State.pollerStep] at hs
    split at hs
    next => cases hs; cases hpast
    next => cases hs
  | recheck =>
    simp only [State.pollerStep] at hs
    split at hs
    next =>
      split at hs
      next hempty =>
        obtain ⟨c, hc, hpub⟩ := h.published
        rw [hinv.eq_of_empty hn hempty]
        exact hinv.published i c hc hpub
      next => cases hs; cases hpast
    next => cases hs
  | sleep =>
    simp only [State.pollerStep] at hs
    split at hs
    next hphase => exact h.taken (by rw [hphase]; rfl)
    next => cases hs
  | enterWakeup => cases hs; cases hpast

theorem step {a : Label} (h : SeenBeforeSleep i s) (hinv : Forward.Inv n base s p)
    (hn : n < 2 ^ 32) (hs : (system v r).step s a = some s') : SeenBeforeSleep i s' := by
  cases a with
  | poller a => exact h.poller hinv hn hs
  | claim msg =>
    refine ⟨published_of_step hs h.published, ?_⟩
    rw [step_claim hs]
    exact h.taken
  | call j =>
    refine ⟨published_of_step hs h.published, ?_⟩
    obtain ⟨c, sh', c', -, -, rfl⟩ := step_call hs
    exact h.taken
  | take =>
    refine ⟨published_of_step hs h.published, fun hpast => ?_⟩
    obtain ⟨hpolling, -, rfl⟩ := step_take hs
    rw [hpolling] at hpast
    cases hpast
  | write j =>
    refine ⟨published_of_step hs h.published, ?_⟩
    obtain ⟨q, -, -, rfl⟩ := step_write hs
    rw [List.length_set]
    exact h.taken
  | complete j =>
    refine ⟨published_of_step hs h.published, ?_⟩
    obtain ⟨q, _, -, -, -, rfl⟩ := step_complete hs
    rw [List.length_set]
    exact h.taken

end SeenBeforeSleep

/-- While no store takes the tail back and less than `2 ^ 32` tickets are outstanding, what has been
published when the polling thread is woken can be taken at once, and has been taken whenever the
thread, after any further steps, has had its last look or is asleep. -/
theorem taken_before_sleep (h : (system v r).Runs (ForwardWithin (2 ^ 32 - 1)) s₀ as s₁)
    (hwake : (system v r).step s₁ (.poller .enterWakeup) = some s₂) :
    (∃ n t, (system v r).run s₂ (List.replicate n .take) = some t ∧
      ∀ (i : ℕ) (c : Call), s₁.calls[i]? = some c → c.published = true → i < t.reqs.length) ∧
    ∀ (bs : List Label) (s : State),
      (system v r).runUnder (ForwardWithin (2 ^ 32 - 1)) s₂ bs = some s →
        s.poller.pastRecheck = true →
          ∀ (i : ℕ) (c : Call), s₁.calls[i]? = some c → c.published = true →
            i < s.reqs.length := by
  have hguard : ForwardWithin (2 ^ 32 - 1) s₁ (.poller .enterWakeup) := ⟨trivial, trivial⟩
  have hbound : 2 ^ 32 - 1 < 2 ^ 32 := Nat.sub_lt (Nat.two_pow_pos 32) Nat.one_pos
  obtain ⟨p, hinv⟩ := Forward.inv_of_runs (h.step hguard hwake)
  obtain rfl := (Option.some.inj hwake).symm
  refine ⟨?_, fun bs s hrun hpast i c hc hpub => ?_⟩
  · obtain ⟨n, t, hrun, ht⟩ := hinv.exists_takes (v := v) (r := r) hbound rfl
    exact ⟨n, t, hrun, fun i c hc hpub => ht ▸ hinv.published i c hc hpub⟩
  · obtain ⟨-, hseen⟩ := Machine.runUnder_invariant
      (I := fun s => (∃ p, Forward.Inv (2 ^ 32 - 1) s₀.shared.sringTail s p) ∧
        SeenBeforeSleep i s) hrun
      ⟨⟨p, hinv⟩, ⟨c, hc, hpub⟩, by simp [Poller.pastRecheck]⟩
      fun _ _ _ ⟨⟨_, hinv⟩, hseen⟩ hg hs => ⟨hinv.step hg hs, hseen.step hinv hbound hs⟩
    exact hseen.taken hpast

/-- The polling thread falls asleep, and a call of the routine without the wait loop publishes. -/
def publishedDozing : List Label :=
  [.poller .needWakeup, .poller .recheck, .poller .sleep, .claim helloA] ++
    List.replicate 6 (.call 0)

/-- The thread takes an entry and falls asleep. -/
def untilAsleep : List Label :=
  [.take, .poller .needWakeup, .poller .recheck, .poller .sleep]

/-- Its entry is taken after the wake-up, before the thread sleeps again. -/
theorem taken_publishedDozing :
    ∃ s₁ s₂ s : State, (system .ioUringCpuMt demoRing).Runs (ForwardWithin (2 ^ 32 - 1))
        .afterSetup publishedDozing s₁ ∧
      (system .ioUringCpuMt demoRing).step s₁ (.poller .enterWakeup) = some s₂ ∧
      (system .ioUringCpuMt demoRing).runUnder (ForwardWithin (2 ^ 32 - 1)) s₂ untilAsleep =
        some s ∧ s.poller = .asleep ∧ 0 < s.reqs.length := by
  let s₁ := ((system .ioUringCpuMt demoRing).runUnder (ForwardWithin (2 ^ 32 - 1)) .afterSetup
    publishedDozing).get (by decide +kernel)
  let s₂ := ((system .ioUringCpuMt demoRing).step s₁ (.poller .enterWakeup)).get (by decide +kernel)
  let s := ((system .ioUringCpuMt demoRing).runUnder (ForwardWithin (2 ^ 32 - 1)) s₂
    untilAsleep).get (by decide +kernel)
  have hrun : (system .ioUringCpuMt demoRing).Runs (ForwardWithin (2 ^ 32 - 1)) .afterSetup
      publishedDozing s₁ := .of_runUnder State.initial_afterSetup (by decide +kernel)
  have hwake : (system .ioUringCpuMt demoRing).step s₁ (.poller .enterWakeup) = some s₂ :=
    (Option.some_get _).symm
  have hs : (system .ioUringCpuMt demoRing).runUnder (ForwardWithin (2 ^ 32 - 1)) s₂ untilAsleep =
      some s := (Option.some_get _).symm
  have htaken := (taken_before_sleep hrun hwake).2 untilAsleep s hs (by decide +kernel) 0
    { msg := helloA, tail := 0, phase := .returned } (by decide +kernel) rfl
  exact ⟨s₁, s₂, s, hrun, hwake, hs, by decide +kernel, htaken⟩

end GpuLibc
