import GpuLibc.Lib.Counter
import GpuLibc.Lib.ByteMemory
import Mathlib.Data.Nat.Log
import Mathlib.Logic.Function.Basic

/-!
# The ring context

The data the print routine works on: messages, submission queue entries, the geometry fixed by
`setup_uring` (ring size, mask, message pool) and the memory shared by the callers and the kernel.
Ring counters, masks and indices are 32-bit words; addresses are natural numbers, and the message
pool starts at an arbitrary one.
-/

namespace GpuLibc

/-- An `unsigned` of the source. -/
abbrev Word := BitVec 32

/-- A `char` of the source. -/
abbrev Byte := BitVec 8

/-- `MSG_BUF_SIZE`: the size of one message window in bytes. -/
def msgBufSize : ℕ := 256

/-- A message that passes the routine's `assert(msg_len < MSG_BUF_SIZE)`; `msg_len` is the length
of the list. -/
structure Message where
  /-- The bytes copied into the window. -/
  bytes : List Byte
  short : bytes.length < msgBufSize
deriving DecidableEq

/-- The 256 bytes of a window into which the message has been copied: `memset` to zero, then
`memcpy` of the message. -/
def Message.window (m : Message) : List Byte :=
  m.bytes ++ List.replicate (msgBufSize - m.bytes.length) 0

@[simp]
theorem Message.take_window (m : Message) : m.window.take m.bytes.length = m.bytes :=
  List.take_left

/-! ## Submission queue entries -/

/-- The opcodes that occur: a zeroed entry is a no-op, a filled one is a write. -/
inductive Opcode
  | nop
  | write
deriving DecidableEq

/-- The fields of `struct io_uring_sqe` that the routine sets. -/
structure Sqe where
  opcode : Opcode
  /-- Index into the list of registered descriptors. -/
  fd : ℤ
  flags : BitVec 8
  addr : ℕ
  len : ℕ
  off : BitVec 64
  userData : ℕ
deriving DecidableEq

/-- An entry after `memset(sqe, 0, sizeof(*sqe))`. -/
def Sqe.zero : Sqe :=
  { opcode := .nop, fd := 0, flags := 0, addr := 0, len := 0, off := 0, userData := 0 }

/-- `IOSQE_FIXED_FILE`. -/
def iosqeFixedFile : BitVec 8 := 1

/-! ## Geometry of the rings -/

/-- What `setup_uring` fixes for the lifetime of a context. The kernel rounds the queue depth up
to a power of two of at most `2 ^ 15`; the routine's 32-bit window offset works up to `2 ^ 24`. -/
structure Ring where
  /-- The submission ring has `2 ^ order` entries. -/
  order : ℕ
  order_le : order ≤ 24
  /-- `ctx->msg_pool`, the address of the message pool. -/
  msgPool : ℕ
  /-- `p.cq_entries`, the number of slots of the completion ring. -/
  cqEntries : ℕ
  le_cqEntries : 2 ^ order ≤ cqEntries

namespace Ring

variable (r : Ring)

/-- The number of entries of the submission ring. -/
def entries : ℕ := 2 ^ r.order

/-- `*ctx->sring_mask`. -/
def sringMask : Word := BitVec.ofNat 32 (2 ^ r.order - 1)

/-- `idx = tail & *mask_ptr`, the slot of a ticket. -/
def idx (tail : Word) : Word := tail &&& r.sringMask

/-- `buff = base + idx * MSG_BUF_SIZE`, the window of a ticket; the product is 32-bit
arithmetic. -/
def buff (tail : Word) : ℕ := r.msgPool + (r.idx tail * BitVec.ofNat 32 msgBufSize).toNat

/-- The entry prepared for a ticket and a message: a write to the fixed file 0 of the message's
bytes, with the slot as the completion cookie. -/
def sqe (tail : Word) (m : Message) : Sqe :=
  { opcode := .write
    fd := 0
    flags := iosqeFixedFile
    addr := r.buff tail
    len := m.bytes.length
    -- append at the file position
    off := -1
    userData := (r.idx tail).toNat }

theorem entries_pos : 0 < r.entries := Nat.two_pow_pos _

theorem entries_le : r.entries ≤ 2 ^ 24 := Nat.pow_le_pow_right (by omega) r.order_le

/-- `*mask_ptr + 1` is the number of entries. -/
theorem toNat_sringMask_add_one : (r.sringMask + 1).toNat = r.entries := by
  have hle := r.entries_le
  have hpos := r.entries_pos
  unfold entries at *
  rw [sringMask, BitVec.toNat_add, BitVec.toNat_ofNat, show (1 : Word).toNat = 1 from rfl]
  omega

theorem toNat_idx (tail : Word) : (r.idx tail).toNat = tail.toNat % r.entries := by
  have hle := r.entries_le
  have hpos := r.entries_pos
  unfold entries at *
  rw [idx, sringMask, BitVec.toNat_and, BitVec.toNat_ofNat, Nat.mod_eq_of_lt (by omega),
    Nat.and_two_pow_sub_one_eq_mod]

theorem idx_lt (tail : Word) : (r.idx tail).toNat < r.entries := by
  rw [toNat_idx]
  exact Nat.mod_lt _ r.entries_pos

/-- Tickets share a slot exactly when they are equal modulo the number of entries. -/
theorem idx_eq_iff {t t' : Word} :
    r.idx t = r.idx t' ↔ t.toNat % r.entries = t'.toNat % r.entries := by
  rw [← BitVec.toNat_inj, toNat_idx, toNat_idx]

/-- The window offset does not overflow 32 bits. -/
theorem buff_eq (tail : Word) : r.buff tail = r.msgPool + (r.idx tail).toNat * msgBufSize := by
  have hlt := r.idx_lt tail
  have hle := r.entries_le
  -- `idx * 256 < 2 ^ 24 * 2 ^ 8`
  rw [buff, BitVec.toNat_mul, BitVec.toNat_ofNat, msgBufSize]
  omega

/-- Windows of distinct slots do not overlap. -/
theorem buff_apart {t t' : Word} (h : r.idx t ≠ r.idx t') :
    ByteMemory.Apart (r.buff t) msgBufSize (r.buff t') msgBufSize := by
  have hne : (r.idx t).toNat ≠ (r.idx t').toNat := fun heq => h (BitVec.eq_of_toNat_eq heq)
  rw [buff_eq, buff_eq, ByteMemory.Apart, msgBufSize]
  omega

/-- The slot of the ticket `n` increments after `base`. -/
theorem idx_after_ne {base : Word} {a b h : ℕ} (ha : h ≤ a) (ha' : a < h + r.entries)
    (hb : h ≤ b) (hb' : b < h + r.entries) (hne : a ≠ b) :
    r.idx (Counter.after base a) ≠ r.idx (Counter.after base b) :=
  Counter.after_and_mask_ne (r.order_le.trans (by omega)) ha ha' hb hb' hne

end Ring

/-! ## Set-up -/

/-- A value of `QUEUE_DEPTH` that the kernel admits. -/
structure QueueDepth where
  val : ℕ
  pos : 1 ≤ val
  le : val ≤ 32768

/-- `QUEUE_DEPTH` as the repository has it. -/
def queueDepth : QueueDepth := { val := 12, pos := by decide, le := by decide }

/-- `pool_bytes = QUEUE_DEPTH * MSG_BUF_SIZE`, the size of the message pool. -/
def poolBytes (d : QueueDepth) : ℕ := d.val * msgBufSize

theorem QueueDepth.clog_le (d : QueueDepth) : Nat.clog 2 d.val ≤ 15 :=
  Nat.clog_le_of_le_pow (d.le.trans (by decide))

/-- The ring of `setup_uring`: `io_uring_setup` rounds the depth up to the next power of two, and
the pool is what the allocator returned. -/
def setupUring (d : QueueDepth) (msgPool cqEntries : ℕ) (h : 2 ^ Nat.clog 2 d.val ≤ cqEntries) :
    Ring :=
  { order := Nat.clog 2 d.val
    order_le := d.clog_le.trans (by decide)
    msgPool
    cqEntries
    le_cqEntries := h }

/-- The words and arrays that the callers and the kernel share. -/
structure Shared where
  /-- `ctx->sq_tail_cache`, the ticket counter. -/
  sqTailCache : Word
  /-- `*ctx->sring_head`, advanced by the kernel. -/
  sringHead : Word
  /-- `*ctx->sring_tail`, the published tail. -/
  sringTail : Word
  /-- `*ctx->sring_flags`. -/
  sringFlags : Word
  /-- `ctx->sring_array`, the indirection array. -/
  sringArray : ℕ → Word
  /-- `ctx->sqes`, the array of submission queue entries. -/
  sqes : ℕ → Sqe
  /-- Byte-addressed memory, in which the message pool lies. -/
  mem : ℕ → Byte

/-- `IORING_SQ_NEED_WAKEUP`. -/
def ioringSqNeedWakeup : Word := 1

end GpuLibc
