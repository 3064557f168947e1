import GpuLibc.Lib.Machine
import Mathlib.Data.List.Nodup

/-!
# Linearization points

A history lists the invocations and the responses of operations that may overlap, each under its
identity. An order of operations linearizes it if a sequential machine accepts the operations in
this order, all operations that have responded are in it, and an operation that has responded
before another one is invoked stands before it.

A timeline marks one more moment of each operation, its linearization point. When the points lie
between invocation and response, their order linearizes the history.

* `Linearizes`: an order of the operations of a history.
* `Timed`: timelines with each point in its place.
* `Timed.linearizes`: the points linearize the history if the machine accepts them.
-/

namespace Linearization

variable {ι σ β : Type*}

/-- What an observer sees of the operations. -/
inductive Event (ι : Type*)
  | invoke (i : ι)
  | respond (i : ι)

/-- The events of a timeline. -/
inductive Mark (ι : Type*)
  | invoke (i : ι)
  /-- The operation takes effect. -/
  | point (i : ι)
  | respond (i : ι)

/-- The operation that an event of a timeline belongs to. -/
def Mark.item : Mark ι → ι
  | invoke i => i
  | point i => i
  | respond i => i

/-- What an observer sees of a timeline. -/
def history (marks : List (Mark ι)) : List (Event ι) :=
  marks.filterMap fun
    | .invoke i => some (.invoke i)
    | .point _ => none
    | .respond i => some (.respond i)

/-- The operations of a timeline in the order of their points. -/
def points (marks : List (Mark ι)) : List ι :=
  marks.filterMap fun
    | .point i => some i
    | _ => none

open List in
/-- The machine `M`, on which `i` is the step `op i`, explains the history by the order. -/
structure Linearizes (M : Machine σ β) (q₀ : σ) (op : ι → β) (hist : List (Event ι))
    (order : List ι) : Prop where
  accepted : ∃ q, M.run q₀ (order.map op) = some q
  nodup : order.Nodup
  invoked : ∀ i ∈ order, .invoke i ∈ hist
  responded : ∀ i, .respond i ∈ hist → i ∈ order
  /-- What has responded before `j` is invoked stands before `j`. -/
  realTime : ∀ i j, [.respond i, .invoke j] <+ hist → j ∈ order → [i, j] <+ order

/-- Each operation is invoked, takes effect and responds, in this order and each at most once. -/
inductive Timed : List (Mark ι) → Prop
  | nil : Timed []
  | invoke {marks : List (Mark ι)} {i : ι} :
      Timed marks → .invoke i ∉ marks → Timed (marks ++ [.invoke i])
  | point {marks : List (Mark ι)} {i : ι} :
      Timed marks → .invoke i ∈ marks → .point i ∉ marks → Timed (marks ++ [.point i])
  | respond {marks : List (Mark ι)} {i : ι} :
      Timed marks → .point i ∈ marks → .respond i ∉ marks → Timed (marks ++ [.respond i])

variable {marks marks' : List (Mark ι)} {i j : ι}

theorem points_append : points (marks ++ marks') = points marks ++ points marks' :=
  List.filterMap_append

@[simp]
theorem history_invoke : history (marks ++ [.invoke i]) = history marks ++ [.invoke i] :=
  List.filterMap_append

@[simp]
theorem history_point : history (marks ++ [.point i]) = history marks :=
  List.filterMap_append.trans (List.append_nil _)

@[simp]
theorem history_respond : history (marks ++ [.respond i]) = history marks ++ [.respond i] :=
  List.filterMap_append

@[simp]
theorem points_invoke : points (marks ++ [.invoke i]) = points marks :=
  points_append.trans (List.append_nil _)

@[simp]
theorem points_point : points (marks ++ [.point i]) = points marks ++ [i] :=
  points_append

@[simp]
theorem points_respond : points (marks ++ [.respond i]) = points marks :=
  points_append.trans (List.append_nil _)

theorem invoke_mem_history : .invoke i ∈ history marks ↔ .invoke i ∈ marks := by
  rw [history, List.mem_filterMap]
  constructor
  · rintro ⟨m, hm, heq⟩
    cases m <;> cases heq
    exact hm
  · exact fun hm => ⟨.invoke i, hm, rfl⟩

theorem respond_mem_history : .respond i ∈ history marks ↔ .respond i ∈ marks := by
  rw [history, List.mem_filterMap]
  constructor
  · rintro ⟨m, hm, heq⟩
    cases m <;> cases heq
    exact hm
  · exact fun hm => ⟨.respond i, hm, rfl⟩

theorem mem_points : i ∈ points marks ↔ .point i ∈ marks := by
  rw [points, List.mem_filterMap]
  constructor
  · rintro ⟨m, hm, heq⟩
    cases m <;> cases heq
    exact hm
  · exact fun hm => ⟨.point i, hm, rfl⟩

open List in
/-- A pair in an extended list. -/
theorem pair_sublist_concat {α : Type*} {l : List α} {a b c : α} :
    [a, b] <+ l ++ [c] ↔ [a, b] <+ l ∨ a ∈ l ∧ b = c := by
  constructor
  · intro h
    -- from the end, where the pair may use the new element
    have hrev : [b, a] <+ c :: l.reverse := by simpa using List.reverse_sublist.mpr h
    obtain hrev | ⟨r, heq, hrev⟩ := List.sublist_cons_iff.mp hrev
    · exact .inl (List.reverse_sublist.mp (by simpa using hrev))
    · obtain ⟨rfl, rfl⟩ := List.cons_eq_cons.mp heq
      exact .inr ⟨by simpa using hrev, rfl⟩
  · rintro (h | ⟨ha, rfl⟩)
    · exact h.trans (List.sublist_append_left l [c])
    · exact (List.singleton_sublist.mpr ha).append (List.Sublist.refl [b])

namespace Timed

/-- A new operation that is invoked, takes effect and responds at once. -/
theorem atomic (h : Timed marks) (hnew : ∀ m ∈ marks, m.item ≠ i) :
    Timed (marks ++ [.invoke i, .point i, .respond i]) := by
  have hinvoke := Timed.invoke (i := i) h fun hmem => hnew _ hmem rfl
  have hpoint : Timed (marks ++ [.invoke i] ++ [.point i]) := by
    refine hinvoke.point (by simp) ?_
    simpa using fun hmem => hnew _ hmem rfl
  have hrespond : Timed (marks ++ [.invoke i] ++ [.point i] ++ [.respond i]) := by
    refine hpoint.respond (by simp) ?_
    simpa using fun hmem => hnew _ hmem rfl
  simpa using hrespond

/-- A point comes after the invocation. -/
theorem invoke_mem (h : Timed marks) (hpoint : .point i ∈ marks) : .invoke i ∈ marks := by
  induction h with
  | nil => cases hpoint
  | invoke _ _ ih => exact List.mem_append_left _ (ih (by simpa using hpoint))
  | respond _ _ _ ih => exact List.mem_append_left _ (ih (by simpa using hpoint))
  | point _ hinvoke _ ih =>
    rcases List.mem_append.mp hpoint with hpoint | hpoint
    · exact List.mem_append_left _ (ih hpoint)
    · obtain rfl := Mark.point.inj (List.mem_singleton.mp hpoint)
      exact List.mem_append_left _ hinvoke

/-- A response comes after the point. -/
theorem point_mem (h : Timed marks) (hrespond : .respond i ∈ marks) : .point i ∈ marks := by
  induction h with
  | nil => cases hrespond
  | invoke _ _ ih => exact List.mem_append_left _ (ih (by simpa using hrespond))
  | point _ _ _ ih => exact List.mem_append_left _ (ih (by simpa using hrespond))
  | respond _ hpoint _ ih =>
    rcases List.mem_append.mp hrespond with hrespond | hrespond
    · exact List.mem_append_left _ (ih hrespond)
    · obtain rfl := Mark.respond.inj (List.mem_singleton.mp hrespond)
      exact List.mem_append_left _ hpoint

theorem nodup_points (h : Timed marks) : (points marks).Nodup := by
  induction h with
  | nil => exact List.nodup_nil
  | invoke _ _ ih => rwa [points_invoke]
  | respond _ _ _ ih => rwa [points_respond]
  | point _ _ hnew ih =>
    rw [points_point]
    refine ih.append (List.nodup_singleton _) (List.disjoint_singleton.mpr ?_)
    exact fun hmem => hnew (mem_points.mp hmem)

open List in
/-- The points respect real time. -/
theorem realTime (h : Timed marks) (hbefore : [.respond i, .invoke j] <+ history marks)
    (hj : j ∈ points marks) : [i, j] <+ points marks := by
  induction h with
  | nil => cases hj
  | invoke h hnew ih =>
    rw [history_invoke, pair_sublist_concat] at hbefore
    rw [points_invoke] at hj ⊢
    obtain hbefore | ⟨-, heq⟩ := hbefore
    · exact ih hbefore hj
    · -- what is invoked now has not taken effect
      obtain rfl := Event.invoke.inj heq
      exact absurd (h.invoke_mem (mem_points.mp hj)) hnew
  | point h _ _ ih =>
    rw [history_point] at hbefore
    rw [points_point] at hj ⊢
    rw [pair_sublist_concat]
    obtain hj | hj := List.mem_append.mp hj
    · exact .inl (ih hbefore hj)
    · -- what has responded has taken effect
      refine .inr ⟨mem_points.mpr (h.point_mem ?_), List.mem_singleton.mp hj⟩
      exact respond_mem_history.mp (hbefore.subset List.mem_cons_self)
  | respond h _ _ ih =>
    rw [history_respond, pair_sublist_concat] at hbefore
    rw [points_respond] at hj ⊢
    obtain hbefore | ⟨-, heq⟩ := hbefore
    · exact ih hbefore hj
    · cases heq

/-- The order of the points linearizes the history if the machine accepts it. -/
theorem linearizes (h : Timed marks) {M : Machine σ β} {q₀ q : σ} {op : ι → β}
    (hrun : M.run q₀ ((points marks).map op) = some q) :
    Linearizes M q₀ op (history marks) (points marks) where
  accepted := ⟨q, hrun⟩
  nodup := h.nodup_points
  invoked _ hi := invoke_mem_history.mpr (h.invoke_mem (mem_points.mp hi))
  responded _ hi := mem_points.mpr (h.point_mem (respond_mem_history.mp hi))
  realTime _ _ := h.realTime

end Timed

end Linearization
