import GpuLibc.Uring.SingleCall

/-!
# Host path and device path

`uring_perror` of `io_uring_cpu_mt` runs on the host and on the device. It picks the host pointers
or the `_dev` pointers of the context by `omp_is_initial_device()`; on the device every access goes
through the address map behind the pointers that `hsa_amd_memory_lock` returned. Both paths leave
the same memory except for one field: the device path stores the window's device address into
`sqe->addr`, and the kernel reads that field as a host address.
-/

namespace GpuLibc

open ByteMemory

/-- The pointer fields of `uring_ctx_t` that the routine reads. -/
structure UringCtx where
  sringTail : ℕ
  sringMask : ℕ
  sringArray : ℕ
  sqes : ℕ
  msgPool : ℕ
  sringTailDev : ℕ
  sringMaskDev : ℕ
  sringArrayDev : ℕ
  sqesDev : ℕ
  msgPoolDev : ℕ
deriving DecidableEq

/-- The memory of the host process, by host address: the words of the rings, the submission queue
entries and the bytes of the message pool. The ticket counter lies in the context. -/
structure HostMemory where
  sqTailCache : Word
  word : ℕ → Word
  sqe : ℕ → Sqe
  byte : ℕ → Byte

/-- `sizeof(unsigned)`. -/
def sizeofUnsigned : ℕ := 4

/-- `sizeof(struct io_uring_sqe)`. -/
def sizeofSqe : ℕ := 64

namespace HostMemory

/-- A store of a word to an address of the view `f`. -/
def storeWord (f : ℕ → ℕ) (a : ℕ) (w : Word) (mem : HostMemory) : HostMemory :=
  { mem with word := Function.update mem.word (f a) w }

/-- A store of an entry to an address of the view `f`. -/
def storeSqe (f : ℕ → ℕ) (a : ℕ) (e : Sqe) (mem : HostMemory) : HostMemory :=
  { mem with sqe := Function.update mem.sqe (f a) e }

/-- Stores of consecutive bytes from an address of the view `f` on. -/
def storeBytes (f : ℕ → ℕ) (a : ℕ) (bs : List Byte) (mem : HostMemory) : HostMemory :=
  { mem with byte := storeThrough f mem.byte a bs }

/-- `atomic_fetch_add_explicit(&ctx->sq_tail_cache, 1, memory_order_relaxed)`. -/
def fetchAdd (mem : HostMemory) : HostMemory := { mem with sqTailCache := mem.sqTailCache + 1 }

end HostMemory

/-- `idx * MSG_BUF_SIZE`, a 32-bit product. -/
def windowOffset (idx : Word) : ℕ := (idx * BitVec.ofNat 32 msgBufSize).toNat

/-- `uring_perror` of `io_uring_cpu_mt`. `host` is `omp_is_initial_device()`, and `f` translates the
addresses of the processor it runs on to host addresses. -/
def uringPerror (host : Bool) (f : ℕ → ℕ) (ctx : UringCtx) (msg : Message) (mem : HostMemory) :
    HostMemory :=
  let tail := mem.sqTailCache
  let maskPtr := if host then ctx.sringMask else ctx.sringMaskDev
  let tailPtr := if host then ctx.sringTail else ctx.sringTailDev
  let arrayPtr := if host then ctx.sringArray else ctx.sringArrayDev
  let sqeBase := if host then ctx.sqes else ctx.sqesDev
  let base := if host then ctx.msgPool else ctx.msgPoolDev
  let idx := tail &&& mem.word (f maskPtr)
  let sqe := sqeBase + idx.toNat * sizeofSqe
  let buff := base + windowOffset idx
  mem.fetchAdd
    |>.storeBytes f buff (List.replicate msgBufSize 0)
    |>.storeBytes f buff msg.bytes
    |>.storeSqe f sqe .zero
    |>.storeSqe f sqe
      { opcode := .write
        fd := 0
        flags := iosqeFixedFile
        -- `(unsigned long)buff`, an address of the processor that runs the routine
        addr := buff
        len := msg.bytes.length
        off := -1
        userData := idx.toNat }
    |>.storeWord f (arrayPtr + idx.toNat * sizeofUnsigned) idx
    |>.storeWord f tailPtr (tail + 1)

/-! ## Address maps -/

/-- The `len` bytes from `dev` on designate the `len` bytes from `host` on. -/
def Designates (f : ℕ → ℕ) (dev host len : ℕ) : Prop := ∀ i < len, f (dev + i) = host + i

/-- Each device pointer of the context designates the same memory as its host counterpart: two
words, and an index, an entry and a window for every slot up to the mask `m`. -/
structure UringCtx.Mapped (ctx : UringCtx) (f : ℕ → ℕ) (m : Word) : Prop where
  tail : Designates f ctx.sringTailDev ctx.sringTail sizeofUnsigned
  mask : Designates f ctx.sringMaskDev ctx.sringMask sizeofUnsigned
  array : Designates f ctx.sringArrayDev ctx.sringArray ((m.toNat + 1) * sizeofUnsigned)
  sqes : Designates f ctx.sqesDev ctx.sqes ((m.toNat + 1) * sizeofSqe)
  pool : Designates f ctx.msgPoolDev ctx.msgPool ((m.toNat + 1) * msgBufSize)

/-- The contents of the submission ring, of the array of entries and of the message pool are the
same in both memories, for a ring with the mask `m`. -/
structure SameContents (ctx : UringCtx) (m : Word) (mem mem' : HostMemory) : Prop where
  tail : mem.word ctx.sringTail = mem'.word ctx.sringTail
  mask : mem.word ctx.sringMask = mem'.word ctx.sringMask
  array : ∀ i ≤ m.toNat, mem.word (ctx.sringArray + i * sizeofUnsigned) =
    mem'.word (ctx.sringArray + i * sizeofUnsigned)
  sqes : ∀ i ≤ m.toNat, mem.sqe (ctx.sqes + i * sizeofSqe) = mem'.sqe (ctx.sqes + i * sizeofSqe)
  pool : ∀ i < (m.toNat + 1) * msgBufSize,
    mem.byte (ctx.msgPool + i) = mem'.byte (ctx.msgPool + i)

/-- Where the kernel finds the text of the entry in slot `idx`: `sqe->addr`. -/
def kernelAddr (ctx : UringCtx) (idx : Word) (mem : HostMemory) : ℕ :=
  (mem.sqe (ctx.sqes + idx.toNat * sizeofSqe)).addr

/-- The slot of the next ticket. -/
def nextIdx (ctx : UringCtx) (mem : HostMemory) : Word :=
  mem.sqTailCache &&& mem.word ctx.sringMask

/-- From the memory `mem`, the host path and the device path leave the same contents, and on both
the address handed to the kernel is the host address of the message's window. -/
def PathsAgree (f : ℕ → ℕ) (ctx : UringCtx) (msg : Message) (mem : HostMemory) : Prop :=
  SameContents ctx (mem.word ctx.sringMask) (uringPerror true id ctx msg mem)
      (uringPerror false f ctx msg mem) ∧
    kernelAddr ctx (nextIdx ctx mem) (uringPerror true id ctx msg mem) =
        ctx.msgPool + windowOffset (nextIdx ctx mem) ∧
    kernelAddr ctx (nextIdx ctx mem) (uringPerror false f ctx msg mem) =
        ctx.msgPool + windowOffset (nextIdx ctx mem)

theorem SameContents.refl (ctx : UringCtx) (m : Word) (mem : HostMemory) :
    SameContents ctx m mem mem :=
  ⟨rfl, rfl, fun _ _ => rfl, fun _ _ => rfl, fun _ _ => rfl⟩

/-! ## What a call leaves -/

/-- The memory after a call, in host addresses, when `addr` is what it stores into `sqe->addr`. -/
def afterPerror (ctx : UringCtx) (addr : ℕ) (msg : Message) (mem : HostMemory) : HostMemory :=
  let idx := nextIdx ctx mem
  let buff := ctx.msgPool + windowOffset idx
  { sqTailCache := mem.sqTailCache + 1
    word :=
      Function.update (Function.update mem.word (ctx.sringArray + idx.toNat * sizeofUnsigned) idx)
        ctx.sringTail (mem.sqTailCache + 1)
    sqe :=
      Function.update mem.sqe (ctx.sqes + idx.toNat * sizeofSqe)
        { opcode := .write, fd := 0, flags := iosqeFixedFile, addr, len := msg.bytes.length,
          off := -1, userData := idx.toNat }
    byte := copy (fill mem.byte buff msgBufSize 0) buff msg.bytes }

section

variable {f : ℕ → ℕ} {ctx : UringCtx} {msg : Message} {mem : HostMemory}

theorem toNat_nextIdx_le : (nextIdx ctx mem).toNat ≤ (mem.word ctx.sringMask).toNat := by
  rw [nextIdx, BitVec.toNat_and]
  exact Nat.and_le_right

/-- The window of a slot lies inside the windows up to the mask. -/
theorem windowOffset_add_lt {i : ℕ} (hi : i < msgBufSize) :
    windowOffset (nextIdx ctx mem) + i < ((mem.word ctx.sringMask).toNat + 1) * msgBufSize := by
  have hidx : (nextIdx ctx mem).toNat ≤ (mem.word ctx.sringMask).toNat := toNat_nextIdx_le
  have hoffset : windowOffset (nextIdx ctx mem) ≤ (nextIdx ctx mem).toNat * msgBufSize := by
    rw [windowOffset, BitVec.toNat_mul, BitVec.toNat_ofNat]
    exact Nat.mod_le _ _
  rw [msgBufSize] at *
  omega

/-- Bytes stored into the window through a map that designates the pool. -/
theorem storeBytes_window {bs : List Byte} {base : ℕ} {byte : ℕ → Byte}
    (hpool : Designates f base ctx.msgPool (((mem.word ctx.sringMask).toNat + 1) * msgBufSize))
    (hlen : bs.length ≤ msgBufSize) :
    storeThrough f byte (base + windowOffset (nextIdx ctx mem)) bs =
      copy byte (ctx.msgPool + windowOffset (nextIdx ctx mem)) bs := by
  apply storeThrough_eq_copy
  intro i hi
  -- the offset stays below the size of the pool
  have hin : windowOffset (nextIdx ctx mem) + i <
      ((mem.word ctx.sringMask).toNat + 1) * msgBufSize :=
    windowOffset_add_lt (by omega)
  rw [Nat.add_assoc, hpool _ hin, Nat.add_assoc]

/-- The device path leaves what the host path would, with the device address of the window. -/
theorem uringPerror_device (hmap : ctx.Mapped f (mem.word ctx.sringMask)) :
    uringPerror false f ctx msg mem =
      afterPerror ctx (ctx.msgPoolDev + windowOffset (nextIdx ctx mem)) msg mem := by
  have hle : (nextIdx ctx mem).toNat ≤ (mem.word ctx.sringMask).toNat := toNat_nextIdx_le
  have hmask : f ctx.sringMaskDev = ctx.sringMask := hmap.mask 0 (by decide)
  have htail : f ctx.sringTailDev = ctx.sringTail := hmap.tail 0 (by decide)
  have harray : f (ctx.sringArrayDev + (nextIdx ctx mem).toNat * sizeofUnsigned) =
      ctx.sringArray + (nextIdx ctx mem).toNat * sizeofUnsigned := by
    apply hmap.array
    rw [sizeofUnsigned]
    omega
  have hsqe : f (ctx.sqesDev + (nextIdx ctx mem).toNat * sizeofSqe) =
      ctx.sqes + (nextIdx ctx mem).toNat * sizeofSqe := by
    apply hmap.sqes
    rw [sizeofSqe]
    omega
  have hclear : storeThrough f mem.byte (ctx.msgPoolDev + windowOffset (nextIdx ctx mem))
      (List.replicate msgBufSize 0) =
      fill mem.byte (ctx.msgPool + windowOffset (nextIdx ctx mem)) msgBufSize 0 := by
    rw [storeBytes_window hmap.pool (by rw [List.length_replicate]), copy_replicate]
  have hcopy (byte : ℕ → Byte) : storeThrough f byte
      (ctx.msgPoolDev + windowOffset (nextIdx ctx mem)) msg.bytes =
      copy byte (ctx.msgPool + windowOffset (nextIdx ctx mem)) msg.bytes :=
    storeBytes_window hmap.pool msg.short.le
  have hidx : mem.sqTailCache &&& mem.word (f ctx.sringMaskDev) = nextIdx ctx mem := by
    rw [hmask, nextIdx]
  -- every access of the device path is rewritten to the host address behind it
  simp only [uringPerror, Bool.false_eq_true, if_false, hidx, HostMemory.fetchAdd,
    HostMemory.storeBytes, HostMemory.storeSqe, HostMemory.storeWord, afterPerror, harray, hsqe,
    htail, hclear, hcopy, Function.update_idem]

/-- The context in which the device pointers are the host pointers. -/
def UringCtx.hostView (ctx : UringCtx) : UringCtx :=
  { ctx with
    sringTailDev := ctx.sringTail
    sringMaskDev := ctx.sringMask
    sringArrayDev := ctx.sringArray
    sqesDev := ctx.sqes
    msgPoolDev := ctx.msgPool }

theorem UringCtx.mapped_hostView (ctx : UringCtx) (m : Word) : ctx.hostView.Mapped id m :=
  ⟨fun _ _ => rfl, fun _ _ => rfl, fun _ _ => rfl, fun _ _ => rfl, fun _ _ => rfl⟩

/-- The host path is the device path of a device that shares the host's addresses. -/
theorem uringPerror_host : uringPerror true id ctx msg mem =
    afterPerror ctx (ctx.msgPool + windowOffset (nextIdx ctx mem)) msg mem := by
  have hpath : uringPerror true id ctx msg mem = uringPerror false id ctx.hostView msg mem := by
    simp only [uringPerror, UringCtx.hostView, Bool.false_eq_true, if_false, if_true]
  rw [hpath, uringPerror_device (ctx.mapped_hostView _)]
  simp only [afterPerror, nextIdx, UringCtx.hostView]

theorem kernelAddr_afterPerror {addr : ℕ} :
    kernelAddr ctx (nextIdx ctx mem) (afterPerror ctx addr msg mem) = addr := by
  simp only [kernelAddr, afterPerror, Function.update_self]

end

/-- For every context whose device pointers designate the same memory as their host counterparts,
every ticket and every message, the two paths agree on what the kernel sees if and only if the
message pool has the same address on the device as on the host. -/
theorem pathsAgree_iff (f : ℕ → ℕ) (ctx : UringCtx) (msg : Message) (mem : HostMemory)
    (hmap : ctx.Mapped f (mem.word ctx.sringMask)) :
    PathsAgree f ctx msg mem ↔ ctx.msgPoolDev = ctx.msgPool := by
  rw [PathsAgree, uringPerror_host, uringPerror_device hmap, kernelAddr_afterPerror,
    kernelAddr_afterPerror]
  constructor
  · -- the address stored by the device path is that of the device's window
    rintro ⟨-, -, haddr⟩
    omega
  · intro heq
    rw [heq]
    exact ⟨.refl _ _ _, rfl, rfl⟩

/-! ## The context of set-up -/

/-- The offsets of `struct io_sqring_offsets` that the routine's pointers use. -/
structure SqOffsets where
  tail : ℕ
  ringMask : ℕ
  array : ℕ

/-- The pointers that `setup_uring` stores: the mapped ring and entries and the allocated pool,
with the agent pointer that `hsa_amd_memory_lock` returned for each. -/
def setupCtx (o : SqOffsets) (sqPtr sqes msgPool sqAgentPtr sqeAgentPtr poolAgentPtr : ℕ) :
    UringCtx :=
  { sringTail := sqPtr + o.tail
    sringMask := sqPtr + o.ringMask
    sringArray := sqPtr + o.array
    sqes
    msgPool
    sringTailDev := sqAgentPtr + o.tail
    sringMaskDev := sqAgentPtr + o.ringMask
    sringArrayDev := sqAgentPtr + o.array
    sqesDev := sqeAgentPtr
    msgPoolDev := poolAgentPtr }

/-- The bytes that a lock of `n` bytes from the start of a page maps: whole pages. -/
def lockedBytes (n : ℕ) : ℕ := (n + 4095) / 4096 * 4096

theorem Designates.shift {f : ℕ → ℕ} {dev host len off n : ℕ} (h : Designates f dev host len)
    (hle : off + n ≤ len) : Designates f (dev + off) (host + off) n := by
  intro i hi
  rw [Nat.add_assoc, h (off + i) (by omega), Nat.add_assoc]

/-- With the depth 12 of the repository, the page of the pool holds the windows of all 16 slots, so
the three locks of set-up map everything that the device path accesses. -/
theorem mapped_setupCtx {f : ℕ → ℕ} {o : SqOffsets}
    {sqPtr sqes msgPool sqAgentPtr sqeAgentPtr poolAgentPtr : ℕ}
    (htail : o.tail + sizeofUnsigned ≤ o.array) (hmask : o.ringMask + sizeofUnsigned ≤ o.array)
    (hring : Designates f sqAgentPtr sqPtr (lockedBytes (o.array + 16 * sizeofUnsigned)))
    (hsqes : Designates f sqeAgentPtr sqes (lockedBytes (16 * sizeofSqe)))
    (hpool : Designates f poolAgentPtr msgPool (lockedBytes (poolBytes queueDepth))) :
    (setupCtx o sqPtr sqes msgPool sqAgentPtr sqeAgentPtr poolAgentPtr).Mapped f 15 := by
  have hlocked (n : ℕ) : n ≤ lockedBytes n := by
    rw [lockedBytes]
    omega
  -- the lock of the ring covers the array at its end
  have hring_le := hlocked (o.array + 16 * sizeofUnsigned)
  refine { tail := ?tail, mask := ?mask, array := ?array, sqes := ?sqes, pool := hpool }
  case tail => exact hring.shift (by omega)
  case mask => exact hring.shift (by omega)
  case array => exact hring.shift hring_le
  case sqes =>
    intro i hi
    exact hsqes i (lt_of_lt_of_le hi (hlocked (16 * sizeofSqe)))

/-! ## The host path and the system of callers -/

/-- The words at the two addresses have no byte in common. -/
def WordsApart (a b : ℕ) : Prop := a + sizeofUnsigned ≤ b ∨ b + sizeofUnsigned ≤ a

instance (a b : ℕ) : Decidable (WordsApart a b) := inferInstanceAs (Decidable (_ ∨ _))

theorem WordsApart.ne {a b : ℕ} (h : WordsApart a b) : a ≠ b := by
  simp only [WordsApart, sizeofUnsigned] at h
  omega

/-- Tail, mask and array of the submission ring do not overlap. -/
structure UringCtx.Disjoint (ctx : UringCtx) (r : Ring) : Prop where
  tail_mask : WordsApart ctx.sringTail ctx.sringMask
  tail_array : ∀ i < r.entries, WordsApart ctx.sringTail (ctx.sringArray + i * sizeofUnsigned)
  mask_array : ∀ i < r.entries, WordsApart ctx.sringMask (ctx.sringArray + i * sizeofUnsigned)

/-- The memory after set-up of a ring of 16 entries whose mask stands at the address 12. -/
def memoryAfterSetup : HostMemory :=
  { sqTailCache := 0
    word := Function.update (fun _ => 0) 12 15
    sqe := fun _ => .zero
    byte := fun _ => 0 }

/-- The address map of a device that sees the host's memory behind `0x100000`. -/
def shifted (a : ℕ) : ℕ := if a < 0x100000 then a else a - 0x100000

/-- A context whose device pointers to the ring and to the entries are shifted ones, and whose
message pool has the device address `msgPoolDev`. -/
def demoCtx (msgPoolDev : ℕ) : UringCtx :=
  { sringTail := 4, sringMask := 12, sringArray := 64, sqes := 0x1000, msgPool := 0x2000
    sringTailDev := 0x100004, sringMaskDev := 0x10000c, sringArrayDev := 0x100040
    sqesDev := 0x101000, msgPoolDev }

theorem designates_shifted {dev a : ℕ} (h : dev = a + 0x100000) (len : ℕ) :
    Designates shifted dev a len := by
  intro i _
  rw [shifted, h, if_neg (by omega)]
  omega

theorem mapped_demoCtx {msgPoolDev : ℕ} {m : Word}
    (hpool : Designates shifted msgPoolDev 0x2000 ((m.toNat + 1) * msgBufSize)) :
    (demoCtx msgPoolDev).Mapped shifted m := by
  refine { tail := ?tail, mask := ?mask, array := ?array, sqes := ?sqes, pool := hpool }
  all_goals exact designates_shifted rfl _

theorem pathsAgree_sharedPool : PathsAgree shifted (demoCtx 0x2000) helloA memoryAfterSetup := by
  refine (pathsAgree_iff shifted (demoCtx 0x2000) helloA memoryAfterSetup ?_).mpr rfl
  apply mapped_demoCtx
  -- the pool lies below the shifted part, so its addresses are left alone
  intro i hi
  have hlen : i < 4096 := hi
  rw [shifted, if_pos (by omega)]

/-- With a shifted message pool the kernel is told to read the message at `0x102000`. -/
theorem not_pathsAgree :
    ¬ ∀ (f : ℕ → ℕ) (ctx : UringCtx) (msg : Message) (mem : HostMemory),
      ctx.Mapped f (mem.word ctx.sringMask) → PathsAgree f ctx msg mem := by
  intro h
  obtain ⟨-, -, haddr⟩ := h shifted (demoCtx 0x102000) helloA memoryAfterSetup
    (mapped_demoCtx (designates_shifted (by decide) _))
  exact absurd haddr (by decide)

end GpuLibc
