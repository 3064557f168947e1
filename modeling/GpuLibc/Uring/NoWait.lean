import GpuLibc.Uring.Submission
import GpuLibc.Uring.Sequential

/-!
# Rings without a wait

The copies of the routine in `io_uring_cpu_mt`, `io_uring_svm_cpu_only` and `io_uring_gpu_no_poll`
go straight from the claim to the window ("TODO: check if not full"). With calls that do not
overlap the ring is safe as long as a call finds fewer untaken entries than the ring has.

A call that has claimed and not yet written is, in `gpu_svm_demo`, a call in the wait loop;
`State.waiting` reads a state that way, so the invariant of the copy with the loop carries over.
-/

namespace GpuLibc

open Counter ByteMemory

variable {v : Variant} {r : Ring} {s s' : State} {base : Word} {p i j : ℕ} {c d : Call}

/-! ## The property and its condition -/

/-- In `io_uring_gpu_no_poll` there is no polling thread, and the kernel takes entries only inside
`uring_flush`, while no call is in progress; in the other copies it takes them at any time. -/
def consumption (v : Variant) (s : State) : Label → Prop
  | .take => v = .ioUringGpuNoPoll → s.Quiescent
  | .poller _ => v ≠ .ioUringGpuNoPoll
  | _ => True

instance (v : Variant) (s : State) : ∀ a, Decidable (consumption v s a)
  | .take => inferInstanceAs (Decidable (v = .ioUringGpuNoPoll → s.Quiescent))
  | .poller _ => inferInstanceAs (Decidable (v ≠ .ioUringGpuNoPoll))
  | .claim _ | .call _ | .write _ | .complete _ => inferInstanceAs (Decidable True)

/-- Calls that do not overlap, and takes where the copy of the routine has them. -/
def oneCaller (v : Variant) (s : State) (a : Label) : Prop := sequential s a ∧ consumption v s a

instance (v : Variant) (s : State) (a : Label) : Decidable (oneCaller v s a) :=
  inferInstanceAs (Decidable (_ ∧ _))

/-- The step is the first write of the call with index `i` to its window. -/
def State.clears (s : State) (i : ℕ) : Prop := s.calls[i]?.map Call.phase = some .memsetBuff

instance (s : State) (i : ℕ) : Decidable (s.clears i) :=
  inferInstanceAs (Decidable (_ = _))

/-- A call starts to write only while fewer published entries than the ring holds are untaken. -/
def writesWithRoom (r : Ring) (s : State) : Label → Prop
  | .call i => s.clears i → s.published < s.reqs.length + r.entries
  | _ => True

instance (r : Ring) (s : State) : ∀ a, Decidable (writesWithRoom r s a)
  | .call i => inferInstanceAs (Decidable (s.clears i → s.published < s.reqs.length + r.entries))
  | .claim _ | .take | .write _ | .complete _ | .poller _ => inferInstanceAs (Decidable True)

/-- No entry that is published and not yet taken is overwritten, and every message is taken exactly
once with its own text. -/
structure NoOverrun (r : Ring) (s : State) : Prop where
  /-- The slot of a published, untaken entry holds what its call put there. -/
  intact : ∀ (i : ℕ) (c : Call), s.calls[i]? = some c → c.published = true → s.reqs.length ≤ i →
    read s.shared.mem (r.buff c.tail) msgBufSize = c.msg.window ∧
      s.shared.sqes (r.idx c.tail).toNat = r.sqe c.tail c.msg
  /-- A call that has written to its slot and not published shares no slot with such an entry. -/
  exclusive : ∀ (i j : ℕ) (c d : Call), s.calls[i]? = some c → c.published = true →
    s.reqs.length ≤ i → s.calls[j]? = some d → d.touched = true → d.published = false →
      r.idx c.tail ≠ r.idx d.tail ∧ Apart (r.buff c.tail) msgBufSize (r.buff d.tail) msgBufSize
  once : ExactlyOnce r s
  /-- When the kernel finds the ring empty it has taken the entries of all published calls. -/
  allTaken : s.shared.sringHead = s.shared.sringTail → s.reqs.length = s.published

/-! ## Reading the first phase as the wait loop -/

/-- The call as one that waits for room when it has not written yet. -/
def Call.waiting (c : Call) : Call :=
  match c.phase with
  | .memsetBuff => { c with phase := .waitRoom }
  | _ => c

/-- The state with every call that has not written yet in the wait loop. -/
def State.waiting (s : State) : State := { s with calls := s.calls.map Call.waiting }

theorem Call.waiting_of_ne (h : c.phase ≠ .memsetBuff) : c.waiting = c := by
  rw [waiting]
  split
  next hphase => exact absurd hphase h
  next => rfl

theorem Call.waiting_of_memsetBuff (h : c.phase = .memsetBuff) :
    c.waiting = { c with phase := .waitRoom } := by
  rw [waiting, h]

theorem Call.ne_memsetBuff_of_published (h : c.published = true) : c.phase ≠ .memsetBuff := by
  intro hphase
  simp [published, hphase] at h

theorem Call.ne_memsetBuff_of_touched (h : c.touched = true) : c.phase ≠ .memsetBuff := by
  intro hphase
  simp [touched, hphase] at h

@[simp]
theorem Call.published_waiting (c : Call) : c.waiting.published = c.published := by
  cases hphase : c.phase <;> simp [waiting, published, hphase]

@[simp]
theorem Call.entry_waiting (r : Ring) (c : Call) : c.waiting.entry r = c.entry r := by
  cases hphase : c.phase <;> simp [waiting, entry, hphase]

@[simp]
theorem State.length_waiting (s : State) : s.waiting.calls.length = s.calls.length :=
  List.length_map ..

@[simp]
theorem State.published_waiting (s : State) : s.waiting.published = s.published := by
  simp only [published, waiting, List.countP_map]
  congr 1
  ext c
  simp

theorem State.getElem?_waiting (hc : s.calls[i]? = some c) :
    s.waiting.calls[i]? = some c.waiting := by
  rw [waiting, List.getElem?_map, hc, Option.map_some]

theorem State.waiting_set (s : State) (sh : Shared) (i : ℕ) (c : Call) :
    State.waiting { s with shared := sh, calls := s.calls.set i c } =
      { s.waiting with shared := sh, calls := s.waiting.calls.set i c.waiting } := by
  rw [waiting, waiting, List.map_set]

/-- Only the wait loop leads to the first write. -/
theorem Call.step_ne_memsetBuff {sh sh' : Shared} {c' : Call}
    (h : c.step v r sh = some (sh', c')) (hne : c.phase ≠ .waitRoom) :
    c'.phase ≠ .memsetBuff := by
  cases hphase : c.phase <;> simp only [Call.step, hphase, Option.some.injEq, Prod.mk.injEq] at h
  case waitRoom => exact absurd hphase hne
  case returned => contradiction
  case storeTail => obtain ⟨-, rfl⟩ := h; cases v <;> simp [Variant.afterPublish]
  all_goals obtain ⟨-, rfl⟩ := h; simp

/-- A turn of the wait loop writes nothing and stays in the loop or ends it. -/
theorem Call.step_of_waitRoom {sh sh' : Shared} {c' : Call}
    (h : c.step v r sh = some (sh', c')) (hphase : c.phase = .waitRoom) :
    sh' = sh ∧ c'.waiting = c := by
  rw [Call.step, hphase, Option.some.injEq, Prod.mk.injEq] at h
  refine ⟨h.1.symm, ?_⟩
  rw [← h.2]
  -- the loop test fails, or it succeeds and the first write comes next
  split
  next => rw [waiting_of_memsetBuff rfl, ← hphase]
  next => exact waiting_of_ne (by simp [hphase])

theorem OthersReturned.waiting (h : OthersReturned s) : OthersReturned s.waiting := by
  intro i c hc hlt
  rw [State.waiting, List.getElem?_map] at hc
  obtain ⟨d, hd, rfl⟩ := Option.map_eq_some_iff.mp hc
  have hphase := h i d hd (by simpa using hlt)
  rw [Call.waiting_of_ne (by simp [hphase]), hphase]

theorem State.Quiescent.waiting (h : s.Quiescent) : s.waiting.Quiescent := by
  intro c hc
  obtain ⟨d, hd, rfl⟩ := List.mem_map.mp hc
  rw [Call.waiting_of_ne (by simp [h d hd]), h d hd]

/-! ## One step -/

/-- What holds along a run of calls that do not overlap and start to write with room. -/
def NoWaitInv (r : Ring) (base : Word) (s : State) : Prop :=
  OthersReturned s ∧ ∃ p, InOrder.Inv r base s.waiting p

namespace NoWaitInv

theorem of_init (h : Initial s) : NoWaitInv r s.shared.sringTail s := by
  have hwaiting : s.waiting = s := by rw [State.waiting, h.calls, List.map_nil, ← h.calls]
  refine ⟨by simp [OthersReturned, h.calls], 0, ?_⟩
  rw [hwaiting]
  exact InOrder.Inv.of_init h

/-- A claim is, in the copy with the loop, a claim as well. -/
theorem claim (hinv : InOrder.Inv r base s.waiting p) (hv : v ≠ .gpuSvmDemo) {msg : Message}
    (hg : s.Quiescent) (hs : (system v r).step s (.claim msg) = some s') :
    InOrder.Inv r base s'.waiting p := by
  have hphase : v.afterClaim = .memsetBuff := by
    cases v <;> first | rfl | exact absurd rfl hv
  have hstep : (system .gpuSvmDemo r).step s.waiting (.claim msg) = some s'.waiting := by
    obtain rfl := step_claim hs
    rw [hphase]
    simp [system, State.step, State.waiting, GpuLibc.claim, Call.waiting, Variant.afterClaim]
  refine hinv.claim ?_ hstep
  -- all calls have published, so the outstanding ones fit into the ring
  have hlen := hinv.eq_of_quiescent hg.waiting
  have hle := hinv.published_le
  have hentries := r.entries_le
  omega

/-- The first write of a call is, in the copy with the loop, the end of the loop and that write. -/
theorem clear (hothers : OthersReturned s) (hinv : InOrder.Inv r base s.waiting p)
    (hc : s.calls[i]? = some c) (hphase : c.phase = .memsetBuff)
    (hg : s.published < s.reqs.length + r.entries) {sh' : Shared} {c' : Call}
    (hstep : c.step v r s.shared = some (sh', c')) :
    InOrder.Inv r base (State.waiting { s with shared := sh', calls := s.calls.set i c' }) p := by
  have hwait : c.waiting = { c with phase := .waitRoom } := Call.waiting_of_memsetBuff hphase
  have hw := State.getElem?_waiting hc
  rw [hwait] at hw
  -- the call is the next one to publish, so its distance to the head is the number of untaken ones
  obtain rfl : i = p := eq_of_waitRoom hothers.waiting hinv hw rfl
  have hpub : s.published = i := (State.published_waiting s).symm.trans hinv.published_eq
  have hroom : hasRoom r s.shared { c with phase := .waitRoom } :=
    (hinv.hasRoom_iff hw hinv.taken_le).mpr (by show i < s.reqs.length + _; omega)
  have hfirst : Call.step .gpuSvmDemo r s.shared { c with phase := .waitRoom } =
      some (s.shared, c) := by
    rw [Call.step, if_pos hroom, ← hphase]
  -- first the end of the loop
  have hready := hinv.call_of_ne hw hfirst (by simp)
  have hci : (s.waiting.calls.set i c)[i]? = some c := by
    rw [List.getElem?_set_self (by simpa using InOrder.Inv.lt_length hc)]
  -- then the write
  have hwrite := hready.call_of_ne hci hstep (by simp [hphase])
  have hc' : c'.waiting = c' := by
    rw [Call.step, hphase, Option.some.injEq, Prod.mk.injEq] at hstep
    rw [← hstep.2]
    rfl
  rw [State.waiting_set, hc']
  simpa only [List.set_set] using hwrite

/-- The other steps of a call are the same in the copy with the loop. -/
theorem call (hothers : OthersReturned s) (hinv : InOrder.Inv r base s.waiting p)
    (hc : s.calls[i]? = some c) (hne : c.phase ≠ .memsetBuff) {sh' : Shared} {c' : Call}
    (hstep : c.step v r s.shared = some (sh', c')) :
    ∃ q, InOrder.Inv r base
      (State.waiting { s with shared := sh', calls := s.calls.set i c' }) q := by
  have hw := State.getElem?_waiting hc
  rw [Call.waiting_of_ne hne] at hw
  rw [State.waiting_set]
  by_cases hloop : c.phase = .waitRoom
  · -- a turn of the loop is no step at all
    obtain ⟨rfl, hc'⟩ := Call.step_of_waitRoom hstep hloop
    obtain ⟨hlt, heq⟩ := List.getElem?_eq_some_iff.mp hw
    have hset : s.waiting.calls.set i c = s.waiting.calls := by
      rw [← heq, List.set_getElem_self]
    rw [hc', hset]
    exact ⟨p, hinv⟩
  · rw [Call.waiting_of_ne (Call.step_ne_memsetBuff hstep hloop)]
    by_cases hphase : c.phase = .storeTail
    · -- the last call is the next one to publish
      obtain rfl : i = p :=
        eq_of_not_published hothers.waiting hinv hw (Call.published_of_storeTail hphase)
      exact ⟨_, hinv.call_of_storeTail hw hstep hphase⟩
    · exact ⟨p, hinv.call_of_ne hw hstep hphase⟩

theorem take (hinv : InOrder.Inv r base s.waiting p)
    (hs : (system v r).step s .take = some s') : InOrder.Inv r base s'.waiting p := by
  obtain ⟨hpoller, hne, rfl⟩ := step_take hs
  have hstep : (system v r).step s.waiting .take = some _ := if_pos ⟨hpoller, hne⟩
  exact hinv.take hstep

theorem step {a : Label} (h : NoWaitInv r base s) (hv : v ≠ .gpuSvmDemo)
    (hg : oneCaller v s a) (hroom : writesWithRoom r s a)
    (hs : (system v r).step s a = some s') : NoWaitInv r base s' := by
  obtain ⟨hothers, p, hinv⟩ := h
  refine ⟨hothers.step hg.1 hs, ?_⟩
  cases a with
  | claim msg => exact ⟨p, claim hinv hv hg.1 hs⟩
  | call i =>
    obtain ⟨c, sh', c', hc, hstep, rfl⟩ := step_call hs
    -- the condition is used at the first write only
    by_cases hphase : c.phase = .memsetBuff
    · have hlt := hroom (by simp [State.clears, hc, hphase])
      exact ⟨p, clear hothers hinv hc hphase hlt hstep⟩
    · exact call hothers hinv hc hphase hstep
  | take => exact ⟨p, take hinv hs⟩
  | write j =>
    obtain ⟨q, hq, -, rfl⟩ := step_write hs
    exact ⟨p, hinv.of_eq rfl (List.length_set ..) (map_set_eq hq rfl) ⟨_, rfl⟩⟩
  | complete j =>
    obtain ⟨q, _, hq, -, -, rfl⟩ := step_complete hs
    exact ⟨p, hinv.of_eq rfl (List.length_set ..) (map_set_eq hq rfl) ⟨_, rfl⟩⟩
  | poller a =>
    rw [step_poller hs]
    exact ⟨p, hinv.of_eq rfl rfl rfl ⟨_, rfl⟩⟩

end NoWaitInv

/-- The invariant gives the property. -/
theorem NoOverrun.of_inv (hinv : InOrder.Inv r base s.waiting p) : NoOverrun r s := by
  have htaken : s.reqs.length ≤ p := hinv.taken_le
  have hpub : s.published = p := (State.published_waiting s).symm.trans hinv.published_eq
  -- a published call is not affected by the other reading of the first phase
  have hpast {i : ℕ} {c : Call} (hc : s.calls[i]? = some c)
      (hne : c.phase ≠ .memsetBuff) : s.waiting.calls[i]? = some c := by
    rw [State.getElem?_waiting hc, Call.waiting_of_ne hne]
  refine { intact := ?intact, exclusive := ?exclusive, once := ?once, allTaken := ?allTaken }
  case intact =>
    intro i c hc hpub hi
    have hw := hpast hc (Call.ne_memsetBuff_of_published hpub)
    obtain ⟨hwindow, hsqe, -⟩ := (hinv.filled i c hw hi).of_published hpub
    exact ⟨hwindow, hsqe⟩
  case exclusive =>
    intro i j c d hc hcp hi hd htouched hdp
    have hcw := hpast hc (Call.ne_memsetBuff_of_published hcp)
    have hdw := hpast hd (Call.ne_memsetBuff_of_touched htouched)
    have hij : i ≠ j := by
      rintro rfl
      rw [hc] at hd
      cases hd
      simp [hcp] at hdp
    -- both are past the loop and not taken, so they hold different slots
    have hne := hinv.idx_ne hcw hdw hij (Call.ne_waitRoom_of_published hcp)
      (Call.ne_waitRoom_of_touched htouched) hi (hinv.taken_le_ticket hdw hdp)
    exact ⟨hne, r.buff_apart hne⟩
  case once =>
    refine ⟨?_, ?_, ?_⟩
    · have hlog := hinv.log
      rw [State.waiting, List.map_map] at hlog
      rw [hlog]
      congr 1
      exact List.map_congr_left fun c _ => Call.entry_waiting r c
    · simpa using htaken.trans hinv.le_claimed
    · intro c hc
      obtain ⟨i, hlt, hi⟩ := getElem?_of_mem_take hc
      -- a call that is taken has published
      have hpublished := (hinv.published i _ (State.getElem?_waiting hi)).mpr (by omega)
      rwa [Call.published_waiting] at hpublished
  case allTaken =>
    intro hempty
    rw [hpub]
    exact hinv.head_eq_tail_iff.mp hempty

/-- In the copies of the routine without the wait loop, calls that do not overlap overrun nothing
as long as each starts to write while the ring is not full. -/
theorem noOverrun_of_writesWithRoom {v : Variant} {r : Ring} {s₀ s : State} {as : List Label}
    (hv : v ≠ .gpuSvmDemo)
    (h : (system v r).Runs (fun s a => oneCaller v s a ∧ writesWithRoom r s a) s₀ as s) :
    NoOverrun r s := by
  obtain ⟨-, p, hinv⟩ := h.invariant (I := NoWaitInv r s₀.shared.sringTail) .of_init
    fun _ _ _ hinv hg hs => hinv.step hv hg.1 hg.2 hs
  exact .of_inv hinv

/-- The steps of a call of `io_uring_gpu_no_poll`; the other two copies have one step less. -/
def noPollCall (i : ℕ) : List Label := List.replicate 7 (.call i)

/-- Sixteen calls fill the ring, a flush takes twelve entries, and the next call finds room. -/
def filledOnce : List Label :=
  (List.range 16).flatMap (fun i => .claim helloA :: noPollCall i) ++
    List.replicate 12 .take ++ .claim helloB :: noPollCall 16

theorem noOverrun_filledOnce :
    ∃ s, NoOverrun demoRing s ∧ s.reqs.length = 12 ∧ s.published = 17 := by
  have hrun : (system .ioUringGpuNoPoll demoRing).Runs
      (fun s a => oneCaller .ioUringGpuNoPoll s a ∧ writesWithRoom demoRing s a)
      .afterSetup filledOnce _ := .of_runUnder State.initial_afterSetup (by decide +kernel)
  exact ⟨_, noOverrun_of_writesWithRoom (by decide) hrun, by decide +kernel⟩

/-- Seventeen calls of `k` steps each before the kernel takes the first entry. -/
def overrunning (k : ℕ) : List Label :=
  (List.range 16).flatMap (fun i => .claim helloA :: List.replicate k (.call i)) ++
    .claim helloB :: List.replicate k (.call 16) ++ [.take]

/-- In each of the three copies the seventeenth call overwrites the first, untaken entry. -/
theorem not_noOverrun :
    (¬ ∀ (r : Ring) (s₀ s : State) (as : List Label),
      (system .ioUringCpuMt r).Runs (oneCaller .ioUringCpuMt) s₀ as s → NoOverrun r s) ∧
    (¬ ∀ (r : Ring) (s₀ s : State) (as : List Label),
      (system .ioUringSvmCpuOnly r).Runs (oneCaller .ioUringSvmCpuOnly) s₀ as s → NoOverrun r s) ∧
    ¬ ∀ (r : Ring) (s₀ s : State) (as : List Label),
      (system .ioUringGpuNoPoll r).Runs (oneCaller .ioUringGpuNoPoll) s₀ as s → NoOverrun r s := by
  refine ⟨fun h => ?_, fun h => ?_, fun h => ?_⟩
  · have hrun := h demoRing .afterSetup _ (overrunning 6)
      (.of_runUnder State.initial_afterSetup (by decide +kernel))
    exact absurd hrun.once (by decide +kernel)
  · have hrun := h demoRing .afterSetup _ (overrunning 6)
      (.of_runUnder State.initial_afterSetup (by decide +kernel))
    exact absurd hrun.once (by decide +kernel)
  · have hrun := h demoRing .afterSetup _ (overrunning 7)
      (.of_runUnder State.initial_afterSetup (by decide +kernel))
    exact absurd hrun.once (by decide +kernel)

end GpuLibc
