import Mathlib.Data.List.Basic
import Mathlib.Logic.Relation

/-!
# Labelled machines and guarded runs

A `Machine` is a deterministic labelled transition system with an executable step function.
Nondeterminism (which party moves next) lies entirely in the choice of the label. A *guard*
`P s a` is a condition on the state before a step; `Runs P` are the runs all of whose steps meet
it.

* `Runs.invariant`: what holds initially and is preserved by guarded steps holds throughout.
* `Runs.imp`: a run under one guard is a run under another that the first implies on invariant
  states.
* `Runs.map`: a map that commutes with the steps takes runs to runs.
* `Runs.simulates`: a stepwise simulation of a machine by an abstract one lifts to whole runs,
  with the abstract labels collected along the run.
* `Runs.exists_refines`: the same for guarded runs of the other machine, with stuttering.
* `Along`, `Runs.along_iff`: what holds of every step of a run, and when it holds exactly of the
  runs that meet a further guard.
* `Runs.of_runUnder`, `Runs.extend`: runs obtained by evaluating the step function.
* `Reaches`, `Runs.exists_of_reaches`: runs obtained by composing stretches between states that
  are known by what holds in them.
-/

universe u v

/-- A labelled transition system with an executable, deterministic step function. -/
structure Machine (σ : Type u) (α : Type v) where
  /-- The states a run may start in. -/
  init : σ → Prop
  /-- The state after the label, or `none` when the label is not enabled. -/
  step : σ → α → Option σ

namespace Machine

variable {σ τ : Type*} {α β : Type*} (M : Machine σ α)

/-- `M.Runs P s₀ as s`: starting in the initial state `s₀`, the labels `as` lead to `s`, and each
step meets the guard `P` in the state before it. -/
inductive Runs (P : σ → α → Prop) (s₀ : σ) : List α → σ → Prop
  | start : M.init s₀ → Runs P s₀ [] s₀
  | step {as : List α} {s s' : σ} {a : α} :
      Runs P s₀ as s → P s a → M.step s a = some s' → Runs P s₀ (as ++ [a]) s'

/-- The state after the labels `as`, or `none` as soon as one of them is not enabled. -/
def run : σ → List α → Option σ
  | s, [] => some s
  | s, a :: as => (M.step s a).bind fun s' => run s' as

/-- The state after the labels `as`, or `none` as soon as one of them is not enabled or does not
meet the guard `P`. -/
def runUnder (P : σ → α → Prop) [∀ s a, Decidable (P s a)] : σ → List α → Option σ
  | s, [] => some s
  | s, a :: as => if P s a then (M.step s a).bind fun s' => runUnder P s' as else none

/-- Guarded steps with any labels lead from the first state to the second. -/
def Reaches (P : σ → α → Prop) : σ → σ → Prop :=
  Relation.ReflTransGen fun s s' => ∃ a, P s a ∧ M.step s a = some s'

/-- The events shown along the labels `as`, when step `a` from `s` shows `events s a`. -/
def trace (events : σ → α → List β) : σ → List α → List β
  | _, [] => []
  | s, a :: as => events s a ++ (M.step s a).elim [] fun s' => trace events s' as

/-- Every step along the labels `as` from `s₀` satisfies `T`. -/
def Along (T : σ → α → σ → Prop) (s₀ : σ) (as : List α) : Prop :=
  ∀ bs a cs s s', as = bs ++ a :: cs → M.run s₀ bs = some s → M.step s a = some s' → T s a s'

variable {M} {P Q : σ → α → Prop} {s₀ s s' : σ} {as bs : List α}

@[simp]
theorem run_nil (s : σ) : M.run s [] = some s := rfl

theorem run_append (s : σ) (as bs : List α) :
    M.run s (as ++ bs) = (M.run s as).bind fun s' => M.run s' bs := by
  induction as generalizing s with
  | nil => rfl
  | cons a as ih =>
    cases h : M.step s a with
    | none => simp [run, h]
    | some s' => simp [run, h, ih]

theorem run_concat {a : α} (h : M.run s as = some s') :
    M.run s (as ++ [a]) = M.step s' a := by
  rw [run_append, h]
  cases hs : M.step s' a <;> simp [run, hs]

/-- What every guarded step preserves is preserved by evaluating labels under the guard. -/
theorem runUnder_invariant [∀ s a, Decidable (P s a)] {I : σ → Prop}
    (hrun : M.runUnder P s as = some s') (h : I s)
    (hstep : ∀ s a s', I s → P s a → M.step s a = some s' → I s') : I s' := by
  induction as generalizing s with
  | nil =>
    obtain rfl : s = s' := by simpa [runUnder] using hrun
    exact h
  | cons a as ih =>
    simp only [runUnder] at hrun
    split at hrun
    next ha =>
      obtain ⟨t, ht, hrest⟩ := Option.bind_eq_some_iff.mp hrun
      exact ih hrest (hstep s a t h ha ht)
    next => cases hrun

/-- A single guarded step. -/
theorem Reaches.single {a : α} (hp : P s a) (hs : M.step s a = some s') : M.Reaches P s s' :=
  Relation.ReflTransGen.single ⟨a, hp, hs⟩

theorem Reaches.trans {t : σ} (h : M.Reaches P s t) (h' : M.Reaches P t s') :
    M.Reaches P s s' :=
  Relation.ReflTransGen.trans h h'

theorem along_nil (T : σ → α → σ → Prop) (s₀ : σ) : M.Along T s₀ [] := by
  intro bs a cs _ _ heq
  simp at heq

theorem along_concat {T : σ → α → σ → Prop} {a : α} (hrun : M.run s₀ as = some s)
    (hstep : M.step s a = some s') :
    M.Along T s₀ (as ++ [a]) ↔ M.Along T s₀ as ∧ T s a s' := by
  constructor
  · intro h
    refine ⟨fun bs b cs t t' heq => h bs b (cs ++ [a]) t t' ?_, h as a [] s s' rfl hrun hstep⟩
    rw [heq, List.append_assoc, List.cons_append]
  · rintro ⟨h, hlast⟩ bs b cs t t' heq hbs hb
    rcases List.eq_nil_or_concat cs with rfl | ⟨ds, d, rfl⟩
    · -- the last step
      obtain ⟨rfl, hab⟩ := List.append_inj' heq rfl
      obtain rfl : a = b := List.head_eq_of_cons_eq hab
      obtain rfl : s = t := Option.some.inj (hrun.symm.trans hbs)
      obtain rfl : s' = t' := Option.some.inj (hstep.symm.trans hb)
      exact hlast
    · have heq' : as ++ [a] = (bs ++ b :: ds) ++ [d] := by simpa using heq
      exact h bs b ds t t' (List.append_inj' heq' rfl).1 hbs hb

namespace Runs

/-- The start of a run is an initial state. -/
theorem init (h : M.Runs P s₀ as s) : M.init s₀ := by
  induction h with
  | start h => exact h
  | step _ _ _ ih => exact ih

/-- Executing the labels of a run reproduces its final state. -/
theorem run_eq (h : M.Runs P s₀ as s) : M.run s₀ as = some s := by
  induction h with
  | start _ => rfl
  | step _ _ hstep ih => rw [run_concat ih, hstep]

/-- What holds initially and is preserved by every guarded step holds in every state reached. -/
theorem invariant {I : σ → Prop} (h : M.Runs P s₀ as s) (hinit : M.init s₀ → I s₀)
    (hstep : ∀ s a s', I s → P s a → M.step s a = some s' → I s') : I s := by
  induction h with
  | start h => exact hinit h
  | step _ hp hs ih => exact hstep _ _ _ ih hp hs

/-- A run under `P` is a run under `Q` when `P` implies `Q` on the states of an invariant. -/
theorem imp {I : σ → Prop} (h : M.Runs P s₀ as s) (hinit : M.init s₀ → I s₀)
    (hstep : ∀ s a s', I s → P s a → M.step s a = some s' → I s')
    (hguard : ∀ s a, I s → P s a → Q s a) : M.Runs Q s₀ as s := by
  induction h with
  | start h => exact .start h
  | step hr hp hs ih => exact .step ih (hguard _ _ (hr.invariant hinit hstep) hp) hs

/-- A weaker guard admits every run of a stronger one. -/
theorem mono (h : M.Runs P s₀ as s) (hguard : ∀ s a, P s a → Q s a) : M.Runs Q s₀ as s :=
  h.imp (I := fun _ => True) (fun _ => trivial) (fun _ _ _ _ _ _ => trivial)
    fun s a _ => hguard s a

/-- Evaluating further labels under the guard extends a run. -/
theorem extend [∀ s a, Decidable (P s a)] (h : M.Runs P s₀ as s)
    (hrun : M.runUnder P s bs = some s') : M.Runs P s₀ (as ++ bs) s' := by
  induction bs generalizing as s with
  | nil =>
    obtain rfl : s = s' := by simpa [runUnder] using hrun
    simpa using h
  | cons b bs ih =>
    simp only [runUnder] at hrun
    split at hrun
    next hb =>
      obtain ⟨t, ht, hrest⟩ := Option.bind_eq_some_iff.mp hrun
      simpa using ih (h.step hb ht) hrest
    next => exact absurd hrun (by simp)

/-- A map that commutes with the steps and respects starts and guards takes runs to runs. -/
theorem map {A : Machine τ α} {Q : τ → α → Prop} {f : σ → τ} (h : M.Runs P s₀ as s)
    (hinit : M.init s₀ → A.init (f s₀)) (hguard : ∀ s a, P s a → Q (f s) a)
    (hf : ∀ s a, A.step (f s) a = (M.step s a).map f) : A.Runs Q (f s₀) as (f s) := by
  induction h with
  | start h => exact .start (hinit h)
  | step _ hp hs ih => exact ih.step (hguard _ _ hp) (by rw [hf, hs, Option.map_some])

/-- What a run can reach is the end of a longer run. -/
theorem exists_of_reaches (h : M.Runs P s₀ as s) (hreach : M.Reaches P s s') :
    ∃ bs, M.Runs P s₀ bs s' := by
  induction hreach with
  | refl => exact ⟨as, h⟩
  | tail _ hnext ih =>
    obtain ⟨bs, hbs⟩ := ih
    obtain ⟨a, hp, hs⟩ := hnext
    exact ⟨bs ++ [a], hbs.step hp hs⟩

/-- The last step of a run. -/
theorem exists_last {a : α} (h : M.Runs P s₀ (as ++ [a]) s') :
    ∃ s, M.Runs P s₀ as s ∧ P s a ∧ M.step s a = some s' := by
  generalize hl : as ++ [a] = l at h
  cases h with
  | start _ => simp at hl
  | step hr hp hs =>
    obtain ⟨rfl, heq⟩ := List.append_inj' hl rfl
    obtain rfl := List.head_eq_of_cons_eq heq
    exact ⟨_, hr, hp, hs⟩

/-- A longer run meets a guard exactly when the run so far and the last step do. -/
theorem concat_iff {a : α} (h : M.Runs P s₀ as s) (hs : M.step s a = some s') :
    M.Runs Q s₀ (as ++ [a]) s' ↔ M.Runs Q s₀ as s ∧ Q s a := by
  refine ⟨fun hruns => ?_, fun ⟨hruns, hq⟩ => hruns.step hq hs⟩
  obtain ⟨t, hbefore, hq, -⟩ := hruns.exists_last
  -- the machine is deterministic, so the run passes through the same state
  obtain rfl : s = t := Option.some.inj (h.run_eq.symm.trans hbefore.run_eq)
  exact ⟨hbefore, hq⟩

/-- When, on the states of an invariant, a step satisfies `T` exactly if it meets the guard `Q`,
then all steps of a run satisfy `T` exactly if the run is one under `Q` as well. -/
theorem along_iff {I : σ → Prop} {T : σ → α → σ → Prop} (h : M.Runs P s₀ as s)
    (hinit : M.init s₀ → I s₀)
    (hstep : ∀ s a s', I s → Q s a → M.step s a = some s' → I s')
    (hexact : ∀ s a s', I s → P s a → M.step s a = some s' → (T s a s' ↔ Q s a)) :
    M.Along T s₀ as ↔ M.Runs Q s₀ as s := by
  induction h with
  | start hi => exact ⟨fun _ => .start hi, fun _ => along_nil T s₀⟩
  | @step as s s' a hr hp hs ih =>
    rw [along_concat hr.run_eq hs, ih]
    constructor
    · rintro ⟨hruns, hT⟩
      have hinv : I s := hruns.invariant hinit hstep
      exact hruns.step ((hexact s a s' hinv hp hs).mp hT) hs
    · intro hruns
      obtain ⟨t, hbefore, hq, -⟩ := hruns.exists_last
      -- the machine is deterministic, so the run passes through the same state
      obtain rfl : s = t := Option.some.inj (hr.run_eq.symm.trans hbefore.run_eq)
      have hinv : I s := hbefore.invariant hinit hstep
      exact ⟨hbefore, (hexact s a s' hinv hp hs).mpr hq⟩

/-- Evaluating labels under the guard from an initial state gives a run. -/
theorem of_runUnder [∀ s a, Decidable (P s a)] (hinit : M.init s₀)
    (hrun : (M.runUnder P s₀ as).isSome) : M.Runs P s₀ as ((M.runUnder P s₀ as).get hrun) := by
  simpa using (Runs.start hinit).extend (Option.some_get hrun).symm

/-- The trace of a run grows by the events of its last step. -/
theorem trace_concat (events : σ → α → List β) (h : M.Runs P s₀ as s) (a : α) :
    M.trace events s₀ (as ++ [a]) = M.trace events s₀ as ++ events s a := by
  have key : ∀ (as : List α) (t : σ), M.run t as = some s →
      M.trace events t (as ++ [a]) = M.trace events t as ++ events s a := by
    intro as
    induction as with
    | nil =>
      intro t ht
      obtain rfl : t = s := by simpa using ht
      cases hs : M.step t a <;> simp [trace, hs]
    | cons b bs ih =>
      intro t ht
      obtain ⟨t', ht', hrest⟩ := Option.bind_eq_some_iff.mp ht
      simp [trace, ht', ih t' hrest]
  exact key as s₀ h.run_eq

/-- Forward simulation. If each guarded step of `M` is matched by a run of `A` over the events it
shows, then a whole run of `M` is matched by a run of `A` over its trace. -/
theorem simulates {A : Machine τ β} {events : σ → α → List β} {R : σ → τ → Prop} {t₀ : τ}
    (h : M.Runs P s₀ as s) (hinit : M.init s₀ → R s₀ t₀)
    (hstep : ∀ s a s' t, R s t → P s a → M.step s a = some s' →
      ∃ t', A.run t (events s a) = some t' ∧ R s' t') :
    ∃ t, A.run t₀ (M.trace events s₀ as) = some t ∧ R s t := by
  induction h with
  | start h => exact ⟨t₀, rfl, hinit h⟩
  | step hr hp hs ih =>
    obtain ⟨t, hrun, hR⟩ := ih
    obtain ⟨t', hrun', hR'⟩ := hstep _ _ _ t hR hp hs
    exact ⟨t', by rw [hr.trace_concat events, run_append, hrun]; exact hrun', hR'⟩

/-- Refinement. If each guarded step of `M` is matched by guarded steps of `A`, of any number, then
the end of a run of `M` is related to the end of a run of `A`. -/
theorem exists_refines {A : Machine τ β} {Q : τ → β → Prop} {R : σ → τ → Prop} {t : τ}
    (h : M.Runs P s₀ as s) (hinit : M.init s₀ → A.init t ∧ R s₀ t)
    (hstep : ∀ s a s' t, R s t → P s a → M.step s a = some s' →
      ∃ t', A.Reaches Q t t' ∧ R s' t') :
    ∃ bs t', A.Runs Q t bs t' ∧ R s t' := by
  induction h with
  | start h => exact ⟨[], t, .start (hinit h).1, (hinit h).2⟩
  | step _ hp hs ih =>
    obtain ⟨bs, u, hrun, hR⟩ := ih
    obtain ⟨u', hreach, hR'⟩ := hstep _ _ _ u hR hp hs
    obtain ⟨cs, hrun'⟩ := hrun.exists_of_reaches hreach
    exact ⟨cs, u', hrun', hR'⟩

end Runs

end Machine
