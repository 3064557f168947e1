import GpuLibc.Uring.Context

/-!
# The print routine

`uring_perror` as a sequence of atomic steps on shared memory. The four programs of the repository
carry four copies of the routine that differ in two places: only `gpu_svm_demo` waits for room in
the ring, and only `io_uring_gpu_no_poll` touches the flag word after publishing.

* `claim`: the `fetch_add` on the ticket counter with which every call starts.
* `Call.step`: the next atomic step of a call in progress.
-/

namespace GpuLibc

/-- The programs that contain a copy of the routine. -/
inductive Variant
  | gpuSvmDemo
  | ioUringCpuMt
  | ioUringSvmCpuOnly
  | ioUringGpuNoPoll
deriving DecidableEq

/-- The next atomic step of a call that holds a ticket. -/
inductive Phase
  /-- Load the head and test for room (`gpu_svm_demo` only). -/
  | waitRoom
  /-- `memset(buff, 0, MSG_BUF_SIZE)`. -/
  | memsetBuff
  /-- `memcpy(buff, msg, msg_len)`. -/
  | memcpyBuff
  /-- `memset(sqe, 0, sizeof(*sqe))`. -/
  | memsetSqe
  /-- The assignments to the fields of `*sqe`. -/
  | fillSqe
  /-- `array_ptr[idx] = idx`. -/
  | storeArray
  /-- The release store of `tail + 1` into `*tail_ptr`. -/
  | storeTail
  /-- Test and clear the flag word (`io_uring_gpu_no_poll` only). -/
  | clearFlags
  | returned
deriving DecidableEq

/-- A call of the routine that has claimed its ticket. -/
structure Call where
  /-- The arguments `msg` and `msg_len`. -/
  msg : Message
  /-- The local variable `tail`, the ticket. -/
  tail : Word
  phase : Phase
deriving DecidableEq

namespace Call

/-- The call has stored its new tail. -/
def published (c : Call) : Bool :=
  match c.phase with
  | .clearFlags | .returned => true
  | _ => false

/-- The call is between the test for room and the store of the tail. -/
def filling (c : Call) : Bool :=
  match c.phase with
  | .waitRoom | .clearFlags | .returned => false
  | _ => true

/-- The window and the entry of the call hold data: from the first write to the window on. -/
def touched (c : Call) : Bool :=
  match c.phase with
  | .waitRoom | .memsetBuff => false
  | _ => true

variable {c : Call}

theorem published_of_returned (h : c.phase = .returned) : c.published = true := by
  simp [published, h]

theorem published_of_storeTail (h : c.phase = .storeTail) : c.published = false := by
  simp [published, h]

/-- Neither a published call nor one that has touched its slot is still waiting for room. -/
theorem ne_waitRoom_of_published (h : c.published = true) : c.phase ≠ .waitRoom := by
  intro hphase
  simp [published, hphase] at h

theorem ne_waitRoom_of_touched (h : c.touched = true) : c.phase ≠ .waitRoom := by
  intro hphase
  simp [touched, hphase] at h

/-- A call that fills its slot is about to clear the window or has touched it. -/
theorem of_filling (h : c.filling = true) :
    c.published = false ∧ c.phase ≠ .waitRoom ∧ (c.touched = true ∨ c.phase = .memsetBuff) := by
  cases hphase : c.phase <;> simp_all [filling, touched, published]

end Call

/-- The condition `tail - head < entries` under which the wait loop ends. -/
def hasRoom (r : Ring) (sh : Shared) (c : Call) : Prop :=
  c.tail - sh.sringHead < r.sringMask + 1

instance (r : Ring) (sh : Shared) (c : Call) : Decidable (hasRoom r sh c) :=
  inferInstanceAs (Decidable (c.tail - sh.sringHead < r.sringMask + 1))

/-- What follows the claim of the ticket: the loop `while (tail - head >= entries)` of
`gpu_svm_demo`; the other copies go straight to the window. -/
def Variant.afterClaim : Variant → Phase
  | .gpuSvmDemo => .waitRoom
  | .ioUringCpuMt | .ioUringSvmCpuOnly | .ioUringGpuNoPoll => .memsetBuff

/-- What follows the store of the tail. -/
def Variant.afterPublish : Variant → Phase
  | .ioUringGpuNoPoll => .clearFlags
  | .gpuSvmDemo | .ioUringCpuMt | .ioUringSvmCpuOnly => .returned

/-- `unsigned tail = ctx->sq_tail_cache.fetch_add(1)`. -/
def claim (v : Variant) (sh : Shared) (msg : Message) : Shared × Call :=
  ({ sh with sqTailCache := sh.sqTailCache + 1 },
    { msg, tail := sh.sqTailCache, phase := v.afterClaim })

namespace Shared

/-- `memset(buff, 0, MSG_BUF_SIZE)`. -/
def memsetBuff (r : Ring) (tail : Word) (sh : Shared) : Shared :=
  { sh with mem := ByteMemory.fill sh.mem (r.buff tail) msgBufSize 0 }

/-- `memcpy(buff, msg, msg_len)`. -/
def memcpyBuff (r : Ring) (tail : Word) (msg : Message) (sh : Shared) : Shared :=
  { sh with mem := ByteMemory.copy sh.mem (r.buff tail) msg.bytes }

/-- `*sqe = e` for `sqe = &sqe_base[idx]`. -/
def storeSqe (r : Ring) (tail : Word) (e : Sqe) (sh : Shared) : Shared :=
  { sh with sqes := Function.update sh.sqes (r.idx tail).toNat e }

/-- `array_ptr[idx] = idx`. -/
def storeArray (r : Ring) (tail : Word) (sh : Shared) : Shared :=
  { sh with sringArray := Function.update sh.sringArray (r.idx tail).toNat (r.idx tail) }

/-- `io_uring_smp_store_release(tail_ptr, tail + 1)`. -/
def storeTail (tail : Word) (sh : Shared) : Shared :=
  { sh with sringTail := tail + 1 }

/-- `if (*flags_ptr & IORING_SQ_NEED_WAKEUP) *flags_ptr = 0`. -/
def clearFlags (sh : Shared) : Shared :=
  if sh.sringFlags &&& ioringSqNeedWakeup ≠ 0 then { sh with sringFlags := 0 } else sh

end Shared

/-- The next atomic step of a call. -/
def Call.step (v : Variant) (r : Ring) (sh : Shared) (c : Call) : Option (Shared × Call) :=
  match c.phase with
  -- a turn of the wait loop that finds no room changes nothing
  | .waitRoom => some (sh, if hasRoom r sh c then { c with phase := .memsetBuff } else c)
  | .memsetBuff => some (sh.memsetBuff r c.tail, { c with phase := .memcpyBuff })
  | .memcpyBuff => some (sh.memcpyBuff r c.tail c.msg, { c with phase := .memsetSqe })
  | .memsetSqe => some (sh.storeSqe r c.tail .zero, { c with phase := .fillSqe })
  -- the assignments to the fields of the entry are one step
  | .fillSqe => some (sh.storeSqe r c.tail (r.sqe c.tail c.msg), { c with phase := .storeArray })
  | .storeArray => some (sh.storeArray r c.tail, { c with phase := .storeTail })
  -- a plain store of the caller's own value, whatever the tail holds by now
  | .storeTail => some (sh.storeTail c.tail, { c with phase := v.afterPublish })
  | .clearFlags => some (sh.clearFlags, { c with phase := .returned })
  | .returned => none

end GpuLibc
