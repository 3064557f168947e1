import GpuLibc.Uring.Sequential

/-!
# The polling thread

After an idle period the polling thread sets a flag, checks the tail once more and goes to sleep,
and then only `io_uring_enter` with `IORING_ENTER_SQ_WAKEUP` wakes it. `uring_perror` computes the
pointer to the flag word and does not look at it. So an entry is safe from being forgotten when it
is published before the polling thread's last look at the tail, and only then.
-/

namespace GpuLibc

variable {v : Variant} {r : Ring} {base : Word} {s₀ s s' : State} {as : List Label} {p : ℕ}

/-- The polling thread has had its last look at the tail before it sleeps. -/
def Poller.pastRecheck : Poller → Bool
  | .rechecked | .asleep => true
  | .polling | .flagged => false

/-- A call stores the tail only while the polling thread will still look at it. -/
def publishesBeforeRecheck (s : State) : Label → Prop
  | .call i => s.publishes i → s.poller.pastRecheck = false
  | _ => True

instance (s : State) : ∀ a, Decidable (publishesBeforeRecheck s a)
  | .call i => inferInstanceAs (Decidable (s.publishes i → _))
  | .claim _ | .take | .write _ | .complete _ | .poller _ => inferInstanceAs (Decidable True)

/-- The calls do not overlap, and each publishes while the polling thread will still look. -/
def Noticed (s : State) (a : Label) : Prop := sequential s a ∧ publishesBeforeRecheck s a

instance (s : State) (a : Label) : Decidable (Noticed s a) :=
  inferInstanceAs (Decidable (_ ∧ _))

/-- With no call in progress, every published entry has been taken unless the polling thread is
awake; and no call waits for room while it sleeps. -/
def NoLostWakeup (r : Ring) (s : State) : Prop :=
  (s.Quiescent → s.published ≤ s.reqs.length ∨ s.poller ≠ .asleep) ∧
    (s.poller = .asleep → ∀ c ∈ s.calls, ¬ Spinning r s c)

/-- A polling thread past its last look has seen the ring empty, and it still is. -/
def EmptyWhenAsleep (s : State) : Prop :=
  s.poller.pastRecheck = true → s.shared.sringHead = s.shared.sringTail

/-- The idle protocol itself keeps the ring empty from the last look on. -/
theorem EmptyWhenAsleep.poller {a : PollerStep} (h : EmptyWhenAsleep s)
    (hs : (system v r).step s (.poller a) = some s') : EmptyWhenAsleep s' := by
  change s.pollerStep a = some s' at hs
  intro hpast
  cases a with
  | needWakeup =>
    simp only [State.pollerStep] at hs
    split at hs
    next => cases hs; cases hpast
    next => cases hs
  | recheck =>
    simp only [State.pollerStep] at hs
    split at hs
    next =>
      split at hs
      next hempty =>
        -- this is the last look
        cases hs
        exact hempty
      next => cases hs; cases hpast
    next => cases hs
  | sleep =>
    simp only [State.pollerStep] at hs
    split at hs
    next hphase =>
      cases hs
      exact h (by rw [hphase]; rfl)
    next => cases hs
  | enterWakeup => cases hs; cases hpast

theorem EmptyWhenAsleep.step {a : Label} (h : EmptyWhenAsleep s)
    (hg : publishesBeforeRecheck s a) (hs : (system v r).step s a = some s') :
    EmptyWhenAsleep s' := by
  cases a with
  | claim msg => rw [step_claim hs]; exact h
  | call i =>
    obtain ⟨c, sh', c', hc, hstep, rfl⟩ := step_call hs
    obtain ⟨-, hhead, htail⟩ := Call.step_words hstep
    intro hpast
    by_cases hphase : c.phase = .storeTail
    · -- the polling thread will still look at the tail
      have hnot := hg (by simp [State.publishes, hc, hphase])
      exact absurd hpast (by simp [hnot])
    · show sh'.sringHead = sh'.sringTail
      rw [hhead, htail, if_neg hphase]
      exact h hpast
  | take =>
    -- a thread that takes entries is awake
    obtain ⟨hpolling, -, rfl⟩ := step_take hs
    intro hpast
    exact absurd hpast (by simp [hpolling, Poller.pastRecheck])
  | write j => obtain ⟨q, -, -, rfl⟩ := step_write hs; exact h
  | complete j => obtain ⟨q, _, -, -, -, rfl⟩ := step_complete hs; exact h
  | poller a => exact h.poller hs

/-- While every call publishes before the last look of the polling thread, no entry is forgotten,
and no call waits for a sleeping thread. -/
theorem noLostWakeup_of_noticed (h : (system .gpuSvmDemo r).Runs Noticed s₀ as s) :
    NoLostWakeup r s := by
  obtain ⟨hothers, p, hinv⟩ := sequential_inv (h.mono fun _ _ hg => hg.1)
  have hempty : EmptyWhenAsleep s :=
    h.invariant (fun hinit hpast => absurd hpast (by simp [hinit.poller, Poller.pastRecheck]))
      fun _ _ _ hinv hg hs => hinv.step hg.2 hs
  refine ⟨fun _ => ?_, fun hasleep c hmem hspin => ?_⟩
  · by_cases hasleep : s.poller = .asleep
    · left
      have heq := hinv.head_eq_tail_iff.mp (hempty (by rw [hasleep]; rfl))
      rw [hinv.published_eq, heq]
    · exact .inr hasleep
  · obtain ⟨hphase, hfull⟩ := hspin
    obtain ⟨i, hc⟩ := List.mem_iff_getElem?.mp hmem
    -- the ring is empty, and the waiting call is the next one to publish
    have heq := hinv.head_eq_tail_iff.mp (hempty (by rw [hasleep]; rfl))
    obtain rfl := eq_of_waitRoom hothers hinv hc hphase
    have hpos := r.entries_pos
    exact hfull ((hinv.hasRoom_iff hc heq.le).mpr (by omega))

/-- The polling thread dozes off and finds the tail moved at its last look. -/
def noticedInTime : List Label :=
  [.poller .needWakeup, .claim helloA] ++ callSteps 0 ++ [.poller .recheck, .take,
    .poller .needWakeup, .poller .recheck, .poller .sleep]

theorem noLostWakeup_noticedInTime :
    ∃ s, (system .gpuSvmDemo demoRing).Runs Noticed .afterSetup noticedInTime s ∧
      NoLostWakeup demoRing s ∧ s.poller = .asleep ∧ s.published = 1 := by
  have hrun : (system .gpuSvmDemo demoRing).Runs Noticed .afterSetup noticedInTime _ :=
    .of_runUnder State.initial_afterSetup (by decide +kernel)
  exact ⟨_, hrun, noLostWakeup_of_noticed hrun, by decide +kernel, by decide +kernel⟩

/-- The polling thread falls asleep, and a call publishes. -/
def publishedAsleep : List Label :=
  [.poller .needWakeup, .poller .recheck, .poller .sleep, .claim helloA] ++ callSteps 0

/-- A message published to a sleeping thread is forgotten. -/
theorem not_noLostWakeup : ¬ ∀ (r : Ring) (s₀ s : State) (as : List Label),
    (system .gpuSvmDemo r).Runs sequential s₀ as s → NoLostWakeup r s := by
  intro h
  have hrun := (h demoRing .afterSetup _ publishedAsleep
    (.of_runUnder State.initial_afterSetup (by decide +kernel))).1 (by decide +kernel)
  exact absurd hrun (by decide +kernel)

end GpuLibc
