import Mathlib.Data.List.Basic

/-!
# Iteration with callbacks

An iterator calls a callback on the elements of a list in order, stops at the first status that is
not `ok` and returns it, and returns `ok` at the end of the list. The callback threads a state,
such as the variable it stores its result in.

* `iterate_eq_find?`: a callback that changes the state only when it stops makes a search for the
  first element at which it does.
* `iterate_snd_eq_ok_iff`: when the status does not depend on the state, the iteration ends with
  `ok` exactly if the callback never stops.
* `iterate_snd_eq_ok_or`: no status is made up.
* `iterate_eq_foldl`: a callback that never stops folds over the list.
* `find?_eq_some_of_imp`: from a search to one for a stronger property.
* `foldl_last`, `iterate_eq_last`: keeping the latest element with a property finds the last one.
-/

namespace Iteration

variable {α σ ε : Type*} [DecidableEq ε]

/-- The state and the status after the callback `cb` has been called on the elements of the list
until it stops. -/
def iterate (ok : ε) (cb : α → σ → σ × ε) : List α → σ → σ × ε
  | [], s => (s, ok)
  | x :: xs, s => if (cb x s).2 = ok then iterate ok cb xs (cb x s).1 else cb x s

variable {ok : ε} {cb : α → σ → σ × ε} {l : List α} {s : σ}

/-- A search: the callback goes on without a trace or stops. -/
theorem iterate_eq_find? {stops : α → Bool} (hgo : ∀ x s, stops x = false → cb x s = (s, ok))
    (hstop : ∀ x s, stops x = true → (cb x s).2 ≠ ok) (l : List α) (s : σ) :
    iterate ok cb l s = ((l.find? stops).map fun x => cb x s).getD (s, ok) := by
  induction l with
  | nil => rfl
  | cons x xs ih =>
    -- the first element decides, or the search goes on with the same state
    cases hx : stops x with
    | false => rw [iterate, hgo x s hx, if_pos rfl, ih, List.find?_cons_of_neg (by simp [hx])]
    | true =>
      rw [iterate, if_neg (hstop x s hx), List.find?_cons_of_pos hx]
      rfl

/-- When the status depends on the element alone, the iteration ends with `ok` exactly if the
callback never stops. -/
theorem iterate_snd_eq_ok_iff {status : α → ε} (h : ∀ x s, (cb x s).2 = status x) :
    (iterate ok cb l s).2 = ok ↔ ∀ x ∈ l, status x = ok := by
  induction l generalizing s with
  | nil => simp [iterate]
  | cons x xs ih =>
    rw [iterate, List.forall_mem_cons]
    -- the state may differ behind the first element, the status does not depend on it
    by_cases hx : status x = ok
    · rw [if_pos (by rw [h, hx]), ih]
      exact ⟨fun hxs => ⟨hx, hxs⟩, And.right⟩
    · rw [if_neg (by rw [h]; exact hx), h]
      exact ⟨fun heq => absurd heq hx, fun hall => absurd hall.1 hx⟩

/-- A callback that never stops is called on every element. -/
theorem iterate_eq_foldl (h : ∀ x ∈ l, ∀ s, (cb x s).2 = ok) :
    iterate ok cb l s = (l.foldl (fun s x => (cb x s).1) s, ok) := by
  induction l generalizing s with
  | nil => rfl
  | cons x xs ih =>
    have hxs : ∀ y ∈ xs, ∀ s, (cb y s).2 = ok := fun y hy => h y (List.mem_cons_of_mem x hy)
    rw [iterate, if_pos (h x List.mem_cons_self s), ih hxs, List.foldl_cons]

/-- The first element with a property is also the first one with a stronger property that it
has. -/
theorem find?_eq_some_of_imp {p q : α → Bool} {x : α}
    (hpq : ∀ y, q y = true → p y = true) (h : l.find? p = some x) (hx : q x = true) :
    l.find? q = some x := by
  obtain ⟨hpx, pre, post, rfl, hpre⟩ := List.find?_eq_some_iff_append.mp h
  refine List.find?_eq_some_iff_append.mpr ⟨hx, pre, post, rfl, fun y hy => ?_⟩
  -- an earlier element with `q` would have `p` too
  by_contra hq
  have hpy := hpre y hy
  rw [hpq y (by simpa using hq)] at hpy
  simp at hpy

/-- The final status is `ok` or one that the callback returned. -/
theorem iterate_snd_eq_ok_or (ok : ε) (cb : α → σ → σ × ε) (l : List α) (s : σ) :
    (iterate ok cb l s).2 = ok ∨ ∃ x ∈ l, ∃ t, (iterate ok cb l s).2 = (cb x t).2 := by
  induction l generalizing s with
  | nil => exact .inl rfl
  | cons x xs ih =>
    rw [iterate]
    by_cases hx : (cb x s).2 = ok
    · rw [if_pos hx]
      refine (ih (cb x s).1).imp_right ?_
      rintro ⟨y, hy, hstatus⟩
      exact ⟨y, List.mem_cons_of_mem x hy, hstatus⟩
    · rw [if_neg hx]
      exact .inr ⟨x, List.mem_cons_self, s, rfl⟩

/-- Keeping the latest value of an element with a property finds the last one in the list. -/
theorem foldl_last {β : Type*} (p : α → Bool) (f : α → β) (l : List α) (out : Option β) :
    l.foldl (fun out x => if p x then some (f x) else out) out =
      ((l.reverse.find? p).map f).or out := by
  -- from the end, where the latest element comes first
  rw [List.foldl_eq_foldr_reverse]
  induction l.reverse with
  | nil => rfl
  | cons x xs ih =>
    rw [List.foldr_cons, ih]
    cases hx : p x <;> simp [hx]

/-- A callback that never stops and stores the latest element with a property makes a search for
the last one. -/
theorem iterate_eq_last {β : Type*} {cb : α → Option β → Option β × ε} {p : α → Bool} {f : α → β}
    (h : ∀ x ∈ l, ∀ out, cb x out = (if p x then some (f x) else out, ok)) (out : Option β) :
    iterate ok cb l out = (((l.reverse.find? p).map f).or out, ok) := by
  have hgo : ∀ x ∈ l, ∀ out, (cb x out).2 = ok := by
    intro x hx out
    rw [h x hx out]
  rw [iterate_eq_foldl hgo, ← foldl_last]
  refine congrArg (·, ok) (List.foldl_ext _ _ _ fun out x hx => ?_)
  rw [h x hx out]

end Iteration
