import GpuLibc.Uring.InOrder

/-!
# Concurrent submission

What the kernel and the calls of `gpu_svm_demo` see of each other when any number of calls overlap:
the entries the kernel takes, the slots the calls write, and the wait loop. All three hold in the
runs that publish in ticket order, and fail in a run of two or three calls that does not.
-/

namespace GpuLibc

variable {r : Ring} {s₀ s : State} {as : List Label}

/-! ## Exactly-once submission -/

/-- The entries taken so far are the complete entries of the calls with the first tickets, each
taken once and in ticket order, and all those calls have published. -/
def ExactlyOnce (r : Ring) (s : State) : Prop :=
  s.reqs.map Request.entry = (s.calls.map (Call.entry r)).take s.reqs.length ∧
    s.reqs.length ≤ s.calls.length ∧ ∀ c ∈ s.calls.take s.reqs.length, c.published = true

/-- In a run that publishes in ticket order, every entry is taken exactly once and complete. -/
theorem exactlyOnce_of_inOrder (h : (system .gpuSvmDemo r).Runs InOrder s₀ as s) :
    ExactlyOnce r s := by
  obtain ⟨p, hinv⟩ := InOrder.inv_of_runs h
  have htaken := hinv.taken_le
  refine ⟨hinv.log, htaken.trans hinv.le_claimed, fun c hc => ?_⟩
  -- a call whose entry was taken is below the head, hence below the tail
  obtain ⟨i, hlt, hi⟩ := getElem?_of_mem_take hc
  exact (hinv.published i c hi).mpr (by omega)

instance (r : Ring) (s : State) : Decidable (ExactlyOnce r s) :=
  inferInstanceAs (Decidable (_ ∧ _ ∧ _))

/-- Two overlapping calls that publish in order, and the kernel taking both entries. -/
def inTurn : List Label :=
  [.claim helloA, .claim helloB] ++ callSteps 0 ++ callSteps 1 ++ [.take, .take]

theorem exactlyOnce_inTurn :
    ∃ s, (system .gpuSvmDemo demoRing).Runs InOrder .afterSetup inTurn s ∧
      ExactlyOnce demoRing s ∧ s.reqs.length = 2 := by
  have hrun : (system .gpuSvmDemo demoRing).Runs InOrder .afterSetup inTurn _ :=
    .of_runUnder State.initial_afterSetup (by decide +kernel)
  exact ⟨_, hrun, exactlyOnce_of_inOrder hrun, by decide +kernel⟩

/-- The second call overtakes the first, and the kernel takes the empty slot of the first. -/
def overtaking : List Label := [.claim helloA, .claim helloB] ++ callSteps 1 ++ [.take]

/-- Without the order the kernel takes an entry that its call has not filled. -/
theorem not_exactlyOnce : ¬ ∀ (r : Ring) (s₀ s : State) (as : List Label),
    (system .gpuSvmDemo r).Runs (outstandingAtMost (2 ^ 31 - 1)) s₀ as s → ExactlyOnce r s := by
  intro h
  have hrun := h demoRing .afterSetup _ overtaking
    (.of_runUnder State.initial_afterSetup (by decide +kernel))
  exact absurd hrun (by decide +kernel)

/-! ## The wait loop -/

/-- Every ticket that is not published is ahead of the head, and the unsigned `tail - head` of its
call is the true distance. -/
def HeadNotPast (s : State) : Prop :=
  ∀ i c, s.calls[i]? = some c → c.published = false →
    s.reqs.length ≤ i ∧ (c.tail - s.shared.sringHead).toNat = i - s.reqs.length

/-- Some call spins, the kernel has nothing to take, and every other call has returned or spins. -/
def Stuck (r : Ring) (s : State) : Prop :=
  (∃ c ∈ s.calls, Spinning r s c) ∧ s.shared.sringHead = s.shared.sringTail ∧
    ∀ c ∈ s.calls, c.phase = .returned ∨ Spinning r s c

instance (r : Ring) (s : State) : Decidable (Stuck r s) :=
  inferInstanceAs (Decidable (_ ∧ _ ∧ _))

/-- In a run that publishes in ticket order, no call is stranded in the wait loop. -/
theorem not_stranded_of_inOrder (h : (system .gpuSvmDemo r).Runs InOrder s₀ as s) :
    HeadNotPast s ∧ ¬ Stuck r s := by
  obtain ⟨p, hinv⟩ := InOrder.inv_of_runs h
  refine ⟨fun i c hc hp => ?_, ?_⟩
  · have hi := hinv.taken_le_ticket hc hp
    exact ⟨hi, hinv.toNat_tail_sub_head hc hi⟩
  · rintro ⟨⟨c, hmem, hphase, -⟩, hempty, hall⟩
    obtain ⟨i, hc⟩ := List.mem_iff_getElem?.mp hmem
    have hlen := InOrder.Inv.lt_length hc
    have hge : p ≤ i := hinv.le_of_not_published hc (by simp [Call.published, hphase])
    -- the first unpublished call sees distance zero, so it does not spin
    obtain ⟨d, hd, hpub⟩ := hinv.exists_unpublished (by omega : p < s.calls.length)
    rcases hall d (List.mem_of_getElem? hd) with hreturned | ⟨-, hspin⟩
    · simp [Call.published_of_returned hreturned] at hpub
    · have heq := hinv.head_eq_tail_iff.mp hempty
      have hpos := r.entries_pos
      exact hspin ((hinv.hasRoom_iff hd heq.le).mpr (by omega))

theorem not_stranded_inTurn :
    ∃ s, (system .gpuSvmDemo demoRing).Runs InOrder .afterSetup inTurn s ∧
      (HeadNotPast s ∧ ¬ Stuck demoRing s) ∧ s.calls.length = 2 := by
  have hrun : (system .gpuSvmDemo demoRing).Runs InOrder .afterSetup inTurn _ :=
    .of_runUnder State.initial_afterSetup (by decide +kernel)
  exact ⟨_, hrun, not_stranded_of_inOrder hrun, by decide +kernel⟩

/-- Without the order the head passes a ticket that is not published, and its call spins for
ever. -/
theorem exists_stuck : ¬ ∀ (r : Ring) (s₀ s : State) (as : List Label),
    (system .gpuSvmDemo r).Runs pollerAwake s₀ as s → HeadNotPast s ∧ ¬ Stuck r s := by
  intro h
  have hrun := (h demoRing .afterSetup _ (overtaking ++ [.take])
    (.of_runUnder State.initial_afterSetup (by decide +kernel))).2
  exact hrun (by decide +kernel)

/-! ## Slot exclusivity -/

/-- Different calls between the test for room and the store of the tail hold tickets that differ
modulo the number of entries: they write different entries, array cells and windows. -/
def SlotsExclusive (r : Ring) (s : State) : Prop :=
  ∀ (i j : ℕ) (c d : Call), s.calls[i]? = some c → s.calls[j]? = some d → i ≠ j →
    c.filling = true → d.filling = true →
      c.tail.toNat % r.entries ≠ d.tail.toNat % r.entries ∧ r.idx c.tail ≠ r.idx d.tail ∧
        ByteMemory.Apart (r.buff c.tail) msgBufSize (r.buff d.tail) msgBufSize

/-- In a run that publishes in ticket order, no slot is written by two calls at a time. -/
theorem slotsExclusive_of_inOrder (h : (system .gpuSvmDemo r).Runs InOrder s₀ as s) :
    SlotsExclusive r s := by
  obtain ⟨p, hinv⟩ := InOrder.inv_of_runs h
  have hfree : ∀ i c, s.calls[i]? = some c → c.filling = true →
      c.phase ≠ .waitRoom ∧ s.reqs.length ≤ i := by
    intro i c hc hfill
    obtain ⟨hpub, hpast, -⟩ := Call.of_filling hfill
    exact ⟨hpast, hinv.taken_le_ticket hc hpub⟩
  -- two such calls are within one window of the ring, where tickets have distinct slots
  intro i j c d hc hd hij hcf hdf
  obtain ⟨hcp, hi⟩ := hfree i c hc hcf
  obtain ⟨hdp, hj⟩ := hfree j d hd hdf
  have hne := hinv.idx_ne hc hd hij hcp hdp hi hj
  exact ⟨fun heq => hne (r.idx_eq_iff.mpr heq), hne, r.buff_apart hne⟩

/-- Two calls in the middle of filling their slots. -/
def fillingTwo : List Label :=
  [.claim helloA, .claim helloB, .call 0, .call 1, .call 1]

theorem slotsExclusive_fillingTwo :
    ∃ s, (system .gpuSvmDemo demoRing).Runs InOrder .afterSetup fillingTwo s ∧
      SlotsExclusive demoRing s ∧ s.calls.countP Call.filling = 2 := by
  have hrun : (system .gpuSvmDemo demoRing).Runs InOrder .afterSetup fillingTwo _ :=
    .of_runUnder State.initial_afterSetup (by decide +kernel)
  exact ⟨_, hrun, slotsExclusive_of_inOrder hrun, by decide +kernel⟩

/-- Seventeen calls hold tickets; the second overtakes the first, which has just found room, and
moves the head far enough to let the last one into the first call's slot. -/
def lapped : List Label :=
  List.replicate 17 (.claim helloA) ++ [.call 0] ++ callSteps 1 ++ [.take, .take, .call 16]

/-- Without the order two calls fill the same slot. -/
theorem not_slotsExclusive : ¬ ∀ (r : Ring) (s₀ s : State) (as : List Label),
    (system .gpuSvmDemo r).Runs (fun _ _ => True) s₀ as s → SlotsExclusive r s := by
  intro h
  have hrun := h demoRing .afterSetup _ lapped
    (.of_runUnder State.initial_afterSetup (by decide +kernel))
  have hne := (hrun 0 16 { msg := helloA, tail := 0, phase := .memsetBuff }
    { msg := helloA, tail := 16, phase := .memsetBuff } (by decide +kernel) (by decide +kernel)
    (by decide) rfl rfl).1
  exact hne (by decide +kernel)

end GpuLibc
