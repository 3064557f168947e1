import Mathlib.Data.Nat.ModEq
import Mathlib.Tactic.Ring

/-!
# Free-running counters of fixed width

A `w`-bit counter that starts at `base` and is incremented without bound shows
`after base n = base + n (mod 2 ^ w)` after `n` increments. A ring buffer keeps such counters for
its two ends and finds the slot of position `n` by masking the low `k` bits.

* `toNat_after_sub`: the difference of two counters is their true distance while that distance is
  below `2 ^ w`.
* `after_injective_of_lt`: two counters less than `2 ^ w` apart are equal only at equal positions.
* `toNat_after_and_mask`: the masked counter is the true position modulo `2 ^ k`.
* `slot_injective`: positions inside one window of `2 ^ k` occupy distinct slots.
-/

namespace Counter

variable {w k : ℕ} {base : BitVec w} {a b h n : ℕ}

/-- The value of a `w`-bit counter that started at `base`, after `n` increments. -/
def after (base : BitVec w) (n : ℕ) : BitVec w := base + BitVec.ofNat w n

@[simp]
theorem after_zero (base : BitVec w) : after base 0 = base := by
  simp [after]

@[simp]
theorem after_add_one (base : BitVec w) (n : ℕ) : after base n + 1 = after base (n + 1) := by
  rw [after, after, BitVec.add_assoc]
  congr 1
  apply BitVec.eq_of_toNat_eq
  simp

theorem after_after (base : BitVec w) (m n : ℕ) : after (after base m) n = after base (m + n) := by
  rw [after, after, after, BitVec.add_assoc, BitVec.ofNat_add]

/-- Every value is reached from every other by their wrapped difference. -/
theorem after_toNat_sub (x y : BitVec w) : after x (y - x).toNat = y := by
  rw [after, BitVec.ofNat_toNat, BitVec.setWidth_eq, BitVec.add_comm, BitVec.sub_add_cancel]

theorem toNat_after (base : BitVec w) (n : ℕ) :
    (after base n).toNat = (base.toNat + n) % 2 ^ w := by
  simp [after]

/-- The wrapped difference of two counters is their true distance while that is below `2 ^ w`. -/
theorem toNat_after_sub (hle : b ≤ a) (hlt : a - b < 2 ^ w) :
    (after base a - after base b).toNat = a - b := by
  obtain ⟨d, rfl⟩ := Nat.exists_eq_add_of_le hle
  have hsub : after base (b + d) - after base b = BitVec.ofNat w d := by
    rw [after, after, BitVec.ofNat_add, ← BitVec.add_assoc, BitVec.add_comm, BitVec.add_sub_cancel]
  rw [hsub, BitVec.toNat_ofNat, Nat.add_sub_cancel_left]
  exact Nat.mod_eq_of_lt (by omega)

/-- An increment of the lower counter shortens the wrapped distance by one. -/
theorem toNat_sub_add_one {x y : BitVec w} (h : x ≠ y) :
    (y - (x + 1)).toNat + 1 = (y - x).toNat := by
  have hpos : (y - x).toNat ≠ 0 := by
    intro hzero
    have hy := after_toNat_sub x y
    rw [hzero, after_zero] at hy
    exact h hy
  have hlt := (y - x).isLt
  have hx : after x 1 = x + 1 := by rw [← after_add_one, after_zero]
  have hsub : (after x (y - x).toNat - after x 1).toNat = (y - x).toNat - 1 :=
    toNat_after_sub (by omega) (by omega)
  rw [after_toNat_sub, hx] at hsub
  omega

/-- Counters less than `2 ^ w` increments apart show the same value only at the same position. -/
theorem after_injective_of_lt (hle : b ≤ a) (hlt : a - b < 2 ^ w)
    (heq : after base a = after base b) : a = b := by
  have hsub : (after base a - after base b).toNat = a - b := toNat_after_sub hle hlt
  rw [heq, BitVec.sub_self, BitVec.toNat_zero] at hsub
  omega

/-- The slot of a position: the low `k` bits of the counter. -/
theorem toNat_after_and_mask (hk : k ≤ w) (base : BitVec w) (n : ℕ) :
    (after base n &&& BitVec.ofNat w (2 ^ k - 1)).toNat = (base.toNat + n) % 2 ^ k := by
  have hpow : 2 ^ k ≤ 2 ^ w := Nat.pow_le_pow_right (by omega) hk
  have hpos : 0 < 2 ^ k := Nat.two_pow_pos k
  rw [BitVec.toNat_and, BitVec.toNat_ofNat, Nat.mod_eq_of_lt (by omega),
    Nat.and_two_pow_sub_one_eq_mod, toNat_after, Nat.mod_mod_of_dvd _ (Nat.pow_dvd_pow 2 hk)]

/-- Two positions inside one window of `2 ^ k` have the same slot only if they are equal. -/
theorem slot_injective {m : ℕ} (ha : h ≤ a) (ha' : a < h + 2 ^ k) (hb : h ≤ b)
    (hb' : b < h + 2 ^ k) (heq : (m + a) % 2 ^ k = (m + b) % 2 ^ k) : a = b := by
  have hmod : a ≡ b [MOD 2 ^ k] := Nat.ModEq.add_left_cancel' m heq
  rcases le_total a b with hab | hab
  · exact Nat.ModEq.eq_of_abs_lt hmod (by rw [abs_lt]; omega)
  · exact (Nat.ModEq.eq_of_abs_lt hmod.symm (by rw [abs_lt]; omega)).symm

/-- In a window of `2 ^ k` positions distinct positions occupy distinct slots. -/
theorem after_and_mask_ne (hk : k ≤ w) (ha : h ≤ a) (ha' : a < h + 2 ^ k) (hb : h ≤ b)
    (hb' : b < h + 2 ^ k) (hne : a ≠ b) :
    after base a &&& BitVec.ofNat w (2 ^ k - 1) ≠ after base b &&& BitVec.ofNat w (2 ^ k - 1) := by
  intro heq
  refine hne (slot_injective (m := base.toNat) ha ha' hb hb' ?_)
  rw [← toNat_after_and_mask hk base a, ← toNat_after_and_mask hk base b, heq]

end Counter
