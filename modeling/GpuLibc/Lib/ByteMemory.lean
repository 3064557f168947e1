import Mathlib.Data.List.GetD
import Mathlib.Logic.Function.Basic
import Mathlib.Tactic.SplitIfs

/-!
# Flat memory

A memory is a total function from addresses to cells. `fill` models `memset`, `copy` models
`memcpy` from a list, `read` is the list of cells in an interval. The lemmas say what an interval
holds after the two writes, and that an interval disjoint from the written one is untouched.
`storeThrough` stores a list through an address map, as a device with a view of its own does; where
the map is a shift on the interval, that is a `copy` to the interval's image. `scatter` stores one
value cell by cell, in any order; over all the cells of an interval, that is a `fill`.
-/

namespace ByteMemory

variable {β : Type*} {m : ℕ → β} {a b n k : ℕ} {v : β} {xs : List β}

/-- The memory with the `n` cells from address `a` on set to `v`. -/
def fill (m : ℕ → β) (a n : ℕ) (v : β) : ℕ → β := fun x => if a ≤ x ∧ x < a + n then v else m x

/-- The memory with the list `xs` stored from address `a` on. -/
def copy (m : ℕ → β) (a : ℕ) (xs : List β) : ℕ → β :=
  fun x => if a ≤ x then xs.getD (x - a) (m x) else m x

/-- The contents of the `n` cells from address `a` on. -/
def read (m : ℕ → β) (a n : ℕ) : List β := (List.range n).map fun i => m (a + i)

/-- The intervals of `n` cells from `a` and of `k` cells from `b` have no cell in common. -/
def Apart (a n b k : ℕ) : Prop := a + n ≤ b ∨ b + k ≤ a

@[simp]
theorem length_read (m : ℕ → β) (a n : ℕ) : (read m a n).length = n := by
  simp [read]

theorem read_congr {m m' : ℕ → β} (h : ∀ i < n, m (a + i) = m' (a + i)) :
    read m a n = read m' a n := by
  rw [read, read]
  exact List.map_congr_left fun i hi => h i (List.mem_range.mp hi)

/-- Memories that read the same in an interval agree on each of its cells. -/
theorem apply_eq_of_read_eq {m m' : ℕ → β} (h : read m a n = read m' a n) {i : ℕ} (hi : i < n) :
    m (a + i) = m' (a + i) := by
  have hget := congrArg (fun l => l[i]?) h
  simpa [read, hi] using hget

/-- Reading a shorter interval reads a prefix. -/
theorem take_read (m : ℕ → β) (h : k ≤ n) : (read m a n).take k = read m a k := by
  rw [read, read, ← List.map_take, List.take_range, Nat.min_eq_left h]

/-- A cell outside the interval keeps its content. -/
theorem fill_apply_of_not_mem {x : ℕ} (h : x < a ∨ a + n ≤ x) : fill m a n v x = m x := by
  rw [fill, if_neg]
  omega

theorem copy_apply_of_not_mem {x : ℕ} (h : x < a ∨ a + xs.length ≤ x) : copy m a xs x = m x := by
  rw [copy]
  split_ifs with hle
  · exact List.getD_eq_default _ _ (by omega)
  · rfl

theorem read_fill_self (m : ℕ → β) (a n : ℕ) (v : β) :
    read (fill m a n v) a n = List.replicate n v := by
  rw [List.eq_replicate_iff]
  refine ⟨length_read _ _ _, fun x hx => ?_⟩
  obtain ⟨i, hi, rfl⟩ := List.mem_map.mp hx
  have hi : i < n := List.mem_range.mp hi
  simp [fill, hi]

theorem read_fill_of_apart (h : Apart a n b k) : read (fill m b k v) a n = read m a n := by
  refine read_congr fun i hi => ?_
  rw [fill, if_neg]
  rcases h with h | h <;> omega

theorem read_copy_of_apart (h : Apart a n b xs.length) :
    read (copy m b xs) a n = read m a n := by
  refine read_congr fun i hi => ?_
  rw [copy]
  split_ifs with hle
  · exact List.getD_eq_default _ _ (by rcases h with h | h <;> omega)
  · rfl

/-- Copying a list into an interval of equal cells leaves the list followed by those cells. -/
theorem read_copy_self (h : read m a n = List.replicate n v) (hlen : xs.length ≤ n) :
    read (copy m a xs) a n = xs ++ List.replicate (n - xs.length) v := by
  have hcell : ∀ i < n, m (a + i) = v := by
    intro i hi
    have hmem : m (a + i) ∈ read m a n := List.mem_map_of_mem (List.mem_range.mpr hi)
    rw [h] at hmem
    exact List.eq_of_mem_replicate hmem
  refine List.ext_getElem (by simp; omega) fun i hi hi' => ?_
  have hin : i < n := by simpa using hi
  simp only [read, copy, List.getElem_map, List.getElem_range, Nat.le_add_right, if_true,
    Nat.add_sub_cancel_left, List.getElem_append, List.getElem_replicate]
  split_ifs with hlt
  · exact List.getD_eq_getElem _ _ hlt
  · rw [List.getD_eq_default _ _ (by omega), hcell i hin]

/-- The memory with the list stored cell by cell from address `a` on, each address being translated
by `f` first. -/
def storeThrough (f : ℕ → ℕ) (m : ℕ → β) (a : ℕ) : List β → ℕ → β
  | [] => m
  | x :: xs => storeThrough f (Function.update m (f a) x) (a + 1) xs

theorem copy_update (m : ℕ → β) (a : ℕ) (x : β) (xs : List β) :
    copy (Function.update m a x) (a + 1) xs = copy m a (x :: xs) := by
  ext y
  rcases Nat.lt_trichotomy y a with hlt | rfl | hgt
  · rw [copy, copy, if_neg (by omega), if_neg (by omega), Function.update_of_ne (by omega)]
  · rw [copy, copy, if_neg (by omega), if_pos (Nat.le_refl y), Nat.sub_self, List.getD_cons_zero,
      Function.update_self]
  · rw [copy, copy, if_pos (by omega), if_pos (by omega), Function.update_of_ne (by omega),
      show y - a = y - (a + 1) + 1 by omega, List.getD_cons_succ]

theorem copy_nil (m : ℕ → β) (a : ℕ) : copy m a [] = m := by
  ext y
  simp [copy]

/-- Storing through a map that shifts the interval to `b` is copying to `b`. -/
theorem storeThrough_eq_copy {f : ℕ → ℕ} (h : ∀ i < xs.length, f (a + i) = b + i) :
    storeThrough f m a xs = copy m b xs := by
  induction xs generalizing m a b with
  | nil => rw [storeThrough, copy_nil]
  | cons x xs ih =>
    have hhead : f a = b := h 0 (by simp)
    have htail : ∀ i < xs.length, f (a + 1 + i) = b + 1 + i := by
      intro i hi
      have hnext := h (i + 1) (by simpa using hi)
      rw [show a + 1 + i = a + (i + 1) by omega, show b + 1 + i = b + (i + 1) by omega, hnext]
    rw [storeThrough, hhead, ih htail, copy_update]

/-- Copying equal cells is filling. -/
theorem copy_replicate (m : ℕ → β) (a n : ℕ) (v : β) :
    copy m a (List.replicate n v) = fill m a n v := by
  ext y
  by_cases hle : a ≤ y
  · by_cases hlt : y < a + n
    · rw [copy, fill, if_pos hle, if_pos ⟨hle, hlt⟩, List.getD_replicate _ (by omega)]
    · rw [copy, fill, if_pos hle, if_neg (by omega), List.getD_eq_default _ _ (by simp; omega)]
  · rw [copy, fill, if_neg hle, if_neg (by omega)]

/-- The memory with `v` stored in the cells whose offsets from `a` are listed, one after another. -/
def scatter (m : ℕ → β) (a : ℕ) (order : List ℕ) (v : β) : ℕ → β :=
  order.foldl (fun m i => Function.update m (a + i) v) m

theorem scatter_apply (m : ℕ → β) (a : ℕ) (order : List ℕ) (v : β) (x : ℕ) :
    scatter m a order v x = if a ≤ x ∧ x - a ∈ order then v else m x := by
  rw [scatter]
  induction order generalizing m with
  | nil => simp
  | cons i is ih =>
    rw [List.foldl_cons, ih]
    -- the store for `i` stays unless the rest stores in its cell again
    by_cases hrest : a ≤ x ∧ x - a ∈ is
    · rw [if_pos hrest, if_pos ⟨hrest.1, List.mem_cons_of_mem i hrest.2⟩]
    · rw [if_neg hrest]
      by_cases hi : x = a + i
      · have hmem : x - a ∈ i :: is := by
          rw [hi, Nat.add_sub_cancel_left]
          exact List.mem_cons_self
        rw [hi, Function.update_self, ← hi, if_pos ⟨by omega, hmem⟩]
      · rw [Function.update_of_ne hi, if_neg]
        rintro ⟨hle, hmem⟩
        obtain heq | hmem := List.mem_cons.mp hmem
        exacts [hi (by omega), hrest ⟨hle, hmem⟩]

/-- Whatever the order in which the cells of an interval are stored. -/
theorem scatter_eq_fill {order : List ℕ} (h : order.Perm (List.range n)) :
    scatter m a order v = fill m a n v := by
  ext x
  rw [scatter_apply, fill]
  refine if_congr ?_ rfl rfl
  rw [h.mem_iff, List.mem_range]
  omega

theorem fill_fill (m : ℕ → β) (a n : ℕ) (v : β) : fill (fill m a n v) a n v = fill m a n v := by
  ext x
  rw [fill, fill]
  by_cases hx : a ≤ x ∧ x < a + n
  · rw [if_pos hx, if_pos hx]
  · rw [if_neg hx]

end ByteMemory
