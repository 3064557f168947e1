import GpuLibc.Uring.System

/-!
# Slots

What one step of a call does to the ring, slot by slot. `SlotEq` says that a step left a slot (its
window, its entry and its place in the indirection array) alone, `Filled` what a call has already
put into its own slot when it stands at a given step.

* `Call.step_slotEq`: a call writes no slot but its own.
* `Call.step_filled`: a step of a call adds its part to the call's own slot.
* `Call.step_words`: only the store of the tail moves a ring counter.
-/

namespace GpuLibc

open ByteMemory

variable {v : Variant} {r : Ring} {sh sh' : Shared} {c c' : Call} {t : Word}

/-- The slot of the ticket `t` holds the same in both states. -/
structure SlotEq (r : Ring) (t : Word) (sh sh' : Shared) : Prop where
  window : read sh'.mem (r.buff t) msgBufSize = read sh.mem (r.buff t) msgBufSize
  sqe : sh'.sqes (r.idx t).toNat = sh.sqes (r.idx t).toNat
  array : sh'.sringArray (r.idx t).toNat = sh.sringArray (r.idx t).toNat

/-- What a call has put into its slot when its next step is `c.phase`. -/
def Filled (r : Ring) (sh : Shared) (c : Call) : Prop :=
  match c.phase with
  | .waitRoom | .memsetBuff => True
  | .memcpyBuff => read sh.mem (r.buff c.tail) msgBufSize = List.replicate msgBufSize 0
  | .memsetSqe | .fillSqe => read sh.mem (r.buff c.tail) msgBufSize = c.msg.window
  | .storeArray =>
    read sh.mem (r.buff c.tail) msgBufSize = c.msg.window ∧
      sh.sqes (r.idx c.tail).toNat = r.sqe c.tail c.msg
  | .storeTail | .clearFlags | .returned =>
    read sh.mem (r.buff c.tail) msgBufSize = c.msg.window ∧
      sh.sqes (r.idx c.tail).toNat = r.sqe c.tail c.msg ∧
      sh.sringArray (r.idx c.tail).toNat = r.idx c.tail

/-- A published call has filled its window, its entry and its place in the array. -/
theorem Filled.of_published (h : Filled r sh c) (hp : c.published = true) :
    read sh.mem (r.buff c.tail) msgBufSize = c.msg.window ∧
      sh.sqes (r.idx c.tail).toNat = r.sqe c.tail c.msg ∧
      sh.sringArray (r.idx c.tail).toNat = r.idx c.tail := by
  cases hphase : c.phase <;> simp only [Call.published, hphase] at hp <;>
    first | contradiction | simpa only [Filled, hphase] using h

/-- `Filled` depends on the slot of the call alone. -/
theorem Filled.congr (heq : SlotEq r c.tail sh sh') (h : Filled r sh c) : Filled r sh' c := by
  cases hphase : c.phase <;>
    simp only [Filled, hphase, heq.window, heq.sqe, heq.array] at h ⊢ <;> exact h

/-- A call keeps its message and its ticket. -/
theorem Call.step_args (h : c.step v r sh = some (sh', c')) :
    c'.msg = c.msg ∧ c'.tail = c.tail := by
  cases hphase : c.phase <;> simp only [Call.step, hphase, Option.some.injEq, Prod.mk.injEq] at h
  case returned => contradiction
  case waitRoom => obtain ⟨-, rfl⟩ := h; split <;> exact ⟨rfl, rfl⟩
  all_goals obtain ⟨-, rfl⟩ := h; exact ⟨rfl, rfl⟩

theorem Call.step_entry (h : c.step v r sh = some (sh', c')) : c'.entry r = c.entry r := by
  obtain ⟨hmsg, htail⟩ := step_args h
  rw [entry, entry, hmsg, htail]

/-- A step leaves the ticket counter and the head alone, and stores the ticket plus one in the
tail when it is the publishing step. -/
theorem Call.step_words (h : c.step v r sh = some (sh', c')) :
    sh'.sqTailCache = sh.sqTailCache ∧ sh'.sringHead = sh.sringHead ∧
      sh'.sringTail = if c.phase = .storeTail then c.tail + 1 else sh.sringTail := by
  cases hphase : c.phase <;> simp only [Call.step, hphase, Option.some.injEq, Prod.mk.injEq] at h
  case returned => contradiction
  case clearFlags =>
    obtain ⟨rfl, -⟩ := h
    rw [Shared.clearFlags]
    split <;> exact ⟨rfl, rfl, rfl⟩
  all_goals obtain ⟨rfl, -⟩ := h; exact ⟨rfl, rfl, rfl⟩

/-- A call has published after a step if it had before or if the step stored the tail. -/
theorem Call.step_published (h : c.step v r sh = some (sh', c')) :
    c'.published = true ↔ c.published = true ∨ c.phase = .storeTail := by
  cases hphase : c.phase <;> simp only [Call.step, hphase, Option.some.injEq, Prod.mk.injEq] at h
  case returned => contradiction
  case waitRoom => obtain ⟨-, rfl⟩ := h; split <;> simp [published, hphase]
  -- where the call goes on depends on the copy of the routine, and both places are published
  case storeTail => obtain ⟨-, rfl⟩ := h; cases v <;> simp [published, Variant.afterPublish]
  all_goals obtain ⟨-, rfl⟩ := h; simp [published, hphase]

/-- A call is past the wait loop if it was before or if it has just found room. -/
theorem Call.step_waitRoom (h : c.step v r sh = some (sh', c')) (hp : c'.phase ≠ .waitRoom) :
    c.phase ≠ .waitRoom ∨ hasRoom r sh c := by
  by_cases hphase : c.phase = .waitRoom
  · right
    -- a turn without room would have left the call in the loop
    simp only [Call.step, hphase, Option.some.injEq, Prod.mk.injEq] at h
    obtain ⟨-, rfl⟩ := h
    by_contra hroom
    rw [if_neg hroom] at hp
    exact hp hphase
  · exact .inl hphase

/-- A call writes no slot but its own, and that only while it is filling it. -/
theorem Call.step_slotEq (h : c.step v r sh = some (sh', c'))
    (hne : c.filling = true → r.idx t ≠ r.idx c.tail) : SlotEq r t sh sh' := by
  cases hphase : c.phase <;>
    simp only [Call.step, hphase, filling, forall_const, Option.some.injEq, Prod.mk.injEq] at h hne
  case returned => contradiction
  case clearFlags =>
    -- the flag word is no part of a slot
    obtain ⟨rfl, -⟩ := h
    rw [Shared.clearFlags]
    split <;> exact ⟨rfl, rfl, rfl⟩
  case memsetBuff =>
    obtain ⟨rfl, -⟩ := h
    exact ⟨read_fill_of_apart (r.buff_apart hne), rfl, rfl⟩
  case memcpyBuff =>
    obtain ⟨rfl, -⟩ := h
    refine ⟨read_copy_of_apart ?_, rfl, rfl⟩
    -- the copied bytes end inside the window
    have hapart := r.buff_apart hne
    have hshort := c.msg.short
    unfold Apart at *
    omega
  case memsetSqe | fillSqe =>
    obtain ⟨rfl, -⟩ := h
    exact ⟨rfl, Function.update_of_ne (fun heq => hne (BitVec.eq_of_toNat_eq heq)) _ _, rfl⟩
  case storeArray =>
    obtain ⟨rfl, -⟩ := h
    exact ⟨rfl, rfl, Function.update_of_ne (fun heq => hne (BitVec.eq_of_toNat_eq heq)) _ _⟩
  all_goals obtain ⟨rfl, -⟩ := h; exact ⟨rfl, rfl, rfl⟩

/-- A step of a call adds its part to the call's own slot. -/
theorem Call.step_filled (h : c.step v r sh = some (sh', c')) (hf : Filled r sh c) :
    Filled r sh' c' := by
  cases hphase : c.phase <;>
    simp only [Call.step, hphase, Option.some.injEq, Prod.mk.injEq] at h <;>
    simp only [Filled, hphase] at hf
  case returned => contradiction
  case waitRoom => obtain ⟨rfl, rfl⟩ := h; split <;> simp [Filled, hphase]
  case memsetBuff => obtain ⟨rfl, rfl⟩ := h; exact read_fill_self _ _ _ _
  case memcpyBuff => obtain ⟨rfl, rfl⟩ := h; exact read_copy_self hf c.msg.short.le
  case memsetSqe => obtain ⟨rfl, rfl⟩ := h; exact hf
  case fillSqe => obtain ⟨rfl, rfl⟩ := h; exact ⟨hf, Function.update_self _ _ _⟩
  case storeArray =>
    obtain ⟨rfl, rfl⟩ := h
    exact ⟨hf.1, hf.2, Function.update_self _ _ _⟩
  case storeTail => obtain ⟨rfl, rfl⟩ := h; cases v <;> exact hf
  case clearFlags =>
    obtain ⟨rfl, rfl⟩ := h
    rw [Shared.clearFlags]
    split <;> exact hf

end GpuLibc
