import GpuLibc.Uring.Rounds

/-!
# Windows and the message pool

`setup_uring` allocates `QUEUE_DEPTH` windows, and `uring_perror` finds the window of a ticket with
the mask of the ring, which the kernel has rounded up to a power of two. The windows of a ring stay
inside the pool exactly when nothing was rounded.
-/

namespace GpuLibc

open Counter ByteMemory

variable {d : QueueDepth}

/-- The window of the ticket lies inside the message pool for the depth `d`. -/
def InPool (d : QueueDepth) (r : Ring) (tail : Word) : Prop :=
  r.msgPool ≤ r.buff tail ∧ r.buff tail + msgBufSize ≤ r.msgPool + poolBytes d

instance (d : QueueDepth) (r : Ring) (tail : Word) : Decidable (InPool d r tail) :=
  inferInstanceAs (Decidable (_ ∧ _))

/-- In all runs from `s₀`, however the calls overlap, the windows that calls clear, fill and hand
over lie inside the pool, and those of tickets that differ modulo the number of entries do not
overlap. -/
def PoolSafe (v : Variant) (d : QueueDepth) (r : Ring) (s₀ : State) : Prop :=
  ∀ (s : State) (as : List Label), (system v r).Runs (fun _ _ => True) s₀ as s →
    (∀ c ∈ s.calls, c.touched = true → InPool d r c.tail) ∧
      ∀ c ∈ s.calls, ∀ c' ∈ s.calls, c.tail.toNat % r.entries ≠ c'.tail.toNat % r.entries →
        Apart (r.buff c.tail) msgBufSize (r.buff c'.tail) msgBufSize

/-- The window of a ticket lies inside the pool when its slot is below the depth. -/
theorem inPool_iff (r : Ring) (tail : Word) :
    InPool d r tail ↔ tail.toNat % r.entries < d.val := by
  rw [InPool, r.buff_eq, r.toNat_idx, poolBytes, msgBufSize]
  omega

/-- The kernel's rounding leaves exactly the powers of two alone. -/
theorem entries_setupUring_le_iff (d : QueueDepth) (msgPool cqEntries : ℕ)
    (h : 2 ^ Nat.clog 2 d.val ≤ cqEntries) :
    (setupUring d msgPool cqEntries h).entries ≤ d.val ↔ ∃ k, d.val = 2 ^ k := by
  show 2 ^ Nat.clog 2 d.val ≤ d.val ↔ _
  constructor
  · intro hle
    exact ⟨Nat.clog 2 d.val, le_antisymm (Nat.le_pow_clog (by omega) _) hle⟩
  · rintro ⟨k, hk⟩
    rw [hk, Nat.clog_pow 2 k (by omega)]

/-- Among consecutive tickets every slot occurs. -/
theorem exists_slot (r : Ring) (base : Word) {j : ℕ} (hj : j < r.entries) :
    ∃ n, (after base n).toNat % r.entries = j := by
  have hpos := r.entries_pos
  refine ⟨j + (r.entries - base.toNat % r.entries), ?_⟩
  have hslot := r.toNat_idx (after base (j + (r.entries - base.toNat % r.entries)))
  have hmask := toNat_after_and_mask (r.order_le.trans (by omega : 24 ≤ 32)) base
    (j + (r.entries - base.toNat % r.entries))
  have hmod := Nat.div_add_mod base.toNat r.entries
  have hlt := Nat.mod_lt base.toNat hpos
  rw [← hslot]
  calc (r.idx (after base (j + (r.entries - base.toNat % r.entries)))).toNat
      = (base.toNat + (j + (r.entries - base.toNat % r.entries))) % r.entries := hmask
    _ = (j + r.entries * (base.toNat / r.entries + 1)) % r.entries := by
        congr 1
        rw [Nat.mul_add, Nat.mul_one]
        omega
    _ = j := by rw [Nat.add_mul_mod_self_left, Nat.mod_eq_of_lt hj]

/-- From any initial counters and in every copy of the routine, all windows lie inside the pool if
and only if the queue depth is a power of two. -/
theorem poolSafe_iff (v : Variant) (d : QueueDepth) (msgPool cqEntries : ℕ)
    (h : 2 ^ Nat.clog 2 d.val ≤ cqEntries) (s₀ : State) (hinit : Initial s₀) :
    PoolSafe v d (setupUring d msgPool cqEntries h) s₀ ↔ ∃ k, d.val = 2 ^ k := by
  rw [← entries_setupUring_le_iff d msgPool cqEntries h]
  set r := setupUring d msgPool cqEntries h
  constructor
  · intro hsafe
    by_contra hlt
    -- run enough rounds for some call to hold slot `d`, the first one behind the pool
    obtain ⟨n, hslot⟩ := exists_slot r s₀.shared.sringTail (not_le.mp hlt)
    obtain ⟨s, hreach, hidle⟩ := exists_idle (v := v) (r := r) hinit helloA (n + 1)
    obtain ⟨as, hrun⟩ := (Machine.Runs.start hinit).exists_of_reaches hreach
    obtain ⟨c, hc⟩ : ∃ c, s.calls[n]? = some c :=
      ⟨_, List.getElem?_eq_getElem (by rw [hidle.calls]; omega)⟩
    have hreturned := hidle.quiescent c (List.mem_of_getElem? hc)
    have hpool := (hsafe s as (hrun.mono fun _ _ _ => trivial)).1 c (List.mem_of_getElem? hc)
      (by simp [Call.touched, hreturned])
    rw [inPool_iff, hidle.ticket n c hc, hslot] at hpool
    exact lt_irrefl _ hpool
  · intro hle s as hrun
    refine ⟨fun c _ _ => ?_, fun c _ c' _ hne => ?_⟩
    · rw [inPool_iff]
      exact (Nat.mod_lt _ r.entries_pos).trans_le hle
    · exact r.buff_apart fun heq => hne (r.idx_eq_iff.mp heq)

theorem poolSafe_sixteen :
    PoolSafe .ioUringCpuMt { val := 16, pos := by decide, le := by decide }
      (setupUring { val := 16, pos := by decide, le := by decide } 0x10000 32 (by decide))
      .afterSetup :=
  (poolSafe_iff _ _ _ _ _ _ State.initial_afterSetup).mpr ⟨4, rfl⟩

/-- With the depth of the repository the thirteenth message is written behind the pool. -/
theorem not_poolSafe : ¬ ∀ (d : QueueDepth) (msgPool cqEntries : ℕ)
    (h : 2 ^ Nat.clog 2 d.val ≤ cqEntries) (s₀ : State), Initial s₀ →
      PoolSafe .gpuSvmDemo d (setupUring d msgPool cqEntries h) s₀ := by
  intro h
  have hrun := (h queueDepth 0x10000 32 (by decide) .afterSetup State.initial_afterSetup _
    (rounds 13) (.of_runUnder State.initial_afterSetup (by decide +kernel))).1
  have hpool := hrun { msg := helloA, tail := 12, phase := .returned } (by decide +kernel) rfl
  exact absurd hpool (by decide +kernel)

end GpuLibc
