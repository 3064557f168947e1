import GpuLibc.Lib.Machine
import Mathlib.Data.Nat.Init
import Mathlib.Logic.Function.Iterate
import Mathlib.Order.Nat

/-!
# Executions without end

A run that goes on for ever, with moments at which nothing happens, so that a run that ends is one
of them. A label is treated fairly if it is taken at some time whenever it stays enabled from some
time on.

* `LeadsTo`: whenever the one holds, the other will hold.
* `leadsTo_of_fair`: a label that is treated fairly and stays enabled until its step has been made
  leads to what its step brings about.
* `leadsTo_of_decreasing`: the same for a label whose steps have to be made several times.
* `part`: what one part of a system sees of an execution.
* `ofRuns`, `forever`: a run after which nothing happens any more, or always the same.
-/

namespace Machine

variable {σ α : Type*} {M : Machine σ α} {P : σ → α → Prop}

/-- A run without end under the guard `P`. -/
structure Execution (M : Machine σ α) (P : σ → α → Prop) where
  state : ℕ → σ
  /-- The label of each step, and `none` when nothing happens. -/
  label : ℕ → Option α
  init : M.init (state 0)
  idle : ∀ n, label n = none → state (n + 1) = state n
  next : ∀ n a, label n = some a → P (state n) a ∧ M.step (state n) a = some (state (n + 1))

/-- The label meets the guard and can be taken. -/
def Enabled (M : Machine σ α) (P : σ → α → Prop) (s : σ) (a : α) : Prop :=
  P s a ∧ ∃ s', M.step s a = some s'

namespace Execution

variable (e : M.Execution P)

/-- A label that stays enabled is taken. -/
def Fair (a : α) : Prop :=
  ∀ n, (∀ m, n ≤ m → M.Enabled P (e.state m) a) → ∃ m, n ≤ m ∧ e.label m = some a

/-- A label that is enabled again and again is taken. -/
def StronglyFair (a : α) : Prop :=
  ∀ n, (∀ m, n ≤ m → ∃ k, m ≤ k ∧ M.Enabled P (e.state k) a) → ∃ m, n ≤ m ∧ e.label m = some a

/-- Whenever `Q` holds, `R` holds then or later. -/
def LeadsTo (Q R : σ → Prop) : Prop := ∀ n, Q (e.state n) → ∃ m, n ≤ m ∧ R (e.state m)

variable {e} {a : α} {I Q R S : σ → Prop} {n m : ℕ}

theorem StronglyFair.fair (h : e.StronglyFair a) : e.Fair a :=
  fun n hall => h n fun m hm => ⟨m, le_rfl, hall m hm⟩

/-- What is not enabled any more from some time on is treated fairly. -/
theorem stronglyFair_of_not_enabled (n : ℕ)
    (hend : ∀ m, n ≤ m → ¬ M.Enabled P (e.state m) a) : e.StronglyFair a := by
  intro m hall
  obtain ⟨k, hk, henabled⟩ := hall (max m n) (le_max_left _ _)
  exact absurd henabled (hend k ((le_max_right _ _).trans hk))

/-- Every state is the end of a run. -/
theorem exists_runs (n : ℕ) : ∃ as, M.Runs P (e.state 0) as (e.state n) := by
  induction n with
  | zero => exact ⟨[], .start e.init⟩
  | succ n ih =>
    obtain ⟨as, hruns⟩ := ih
    cases hlabel : e.label n with
    | none =>
      rw [e.idle n hlabel]
      exact ⟨as, hruns⟩
    | some a =>
      obtain ⟨hguard, hstep⟩ := e.next n a hlabel
      exact ⟨as ++ [a], hruns.step hguard hstep⟩

/-- What the steps keep is kept. -/
theorem stays (hkeep : ∀ s a s', Q s → P s a → M.step s a = some s' → Q s')
    (hn : Q (e.state n)) (hle : n ≤ m) : Q (e.state m) := by
  induction m, hle using Nat.le_induction with
  | base => exact hn
  | succ m _ ih =>
    cases hlabel : e.label m with
    | none => rwa [e.idle m hlabel]
    | some a =>
      obtain ⟨hguard, hstep⟩ := e.next m a hlabel
      exact hkeep _ _ _ ih hguard hstep

namespace LeadsTo

theorem of_imp (h : ∀ s, Q s → R s) : e.LeadsTo Q R := fun n hn => ⟨n, le_rfl, h _ hn⟩

theorem trans (h : e.LeadsTo Q R) (h' : e.LeadsTo R S) : e.LeadsTo Q S := by
  intro n hn
  obtain ⟨m, hnm, hm⟩ := h n hn
  obtain ⟨k, hmk, hk⟩ := h' m hm
  exact ⟨k, hnm.trans hmk, hk⟩

/-- Only the states in which `R` does not hold yet have to be looked at. -/
theorem of_not (h : e.LeadsTo (fun s => Q s ∧ ¬ R s) R) : e.LeadsTo Q R := by
  intro n hn
  by_cases hR : R (e.state n)
  · exact ⟨n, le_rfl, hR⟩
  · exact h n ⟨hn, hR⟩

/-- What the steps keep still holds when the other has come to hold. -/
theorem and_stable (h : e.LeadsTo Q R)
    (hkeep : ∀ s a s', S s → P s a → M.step s a = some s' → S s') :
    e.LeadsTo (fun s => Q s ∧ S s) fun s => R s ∧ S s := by
  rintro n ⟨hn, hS⟩
  obtain ⟨m, hnm, hm⟩ := h n hn
  exact ⟨m, hnm, hm, e.stays hkeep hS hnm⟩

/-- What is reached one after the other and kept is reached together. -/
theorem forall_lt {R : ℕ → σ → Prop}
    (hQ : ∀ s a s', Q s → P s a → M.step s a = some s' → Q s')
    (hR : ∀ j s a s', R j s → P s a → M.step s a = some s' → R j s')
    (h : ∀ j < m, e.LeadsTo Q (R j)) : e.LeadsTo Q fun s => (∀ j < m, R j s) ∧ Q s := by
  induction m with
  | zero => exact .of_imp fun s hs => ⟨fun j hj => absurd hj (Nat.not_lt_zero j), hs⟩
  | succ m ih =>
    have hlast := ((h m (Nat.lt_succ_self m)).and_stable hQ).and_stable
      (S := fun s => ∀ j < m, R j s) fun s a s' hs hP hstep j hj => hR j s a s' (hs j hj) hP hstep
    refine (ih fun j hj => h j (Nat.lt_succ_of_lt hj)).trans (.trans (.of_imp ?_) (hlast.trans ?_))
    · rintro s ⟨hall, hs⟩
      exact ⟨⟨hs, hs⟩, hall⟩
    · refine .of_imp ?_
      rintro s ⟨⟨hm, hs⟩, hall⟩
      refine ⟨fun j hj => ?_, hs⟩
      rcases Nat.lt_succ_iff_lt_or_eq.mp hj with hj | rfl
      · exact hall j hj
      · exact hm

/-- If `Q` leads to `R` or to `Q` with a smaller measure, it leads to `R`. -/
theorem of_measure (μ : σ → ℕ)
    (h : ∀ k, e.LeadsTo (fun s => Q s ∧ μ s = k) fun s => R s ∨ Q s ∧ μ s < k) :
    e.LeadsTo Q R := by
  have key (k : ℕ) : ∀ n, Q (e.state n) → μ (e.state n) = k → ∃ m, n ≤ m ∧ R (e.state m) := by
    induction k using Nat.strong_induction_on with
    | _ k ih =>
      intro n hn hk
      obtain ⟨m, hnm, hm | ⟨hm, hlt⟩⟩ := h k n ⟨hn, hk⟩
      · exact ⟨m, hnm, hm⟩
      · obtain ⟨l, hml, hl⟩ := ih _ hlt m hm rfl
        exact ⟨l, hnm.trans hml, hl⟩
  exact fun n hn => key _ n hn rfl

end LeadsTo

/-- A label that is treated fairly, and enabled in `Q` until it is taken or `R` holds anyway. -/
theorem leadsTo_of_fair (hfair : e.Fair a) (hinv : ∀ n, I (e.state n))
    (henabled : ∀ s, I s → Q s → M.Enabled P s a)
    (htaken : ∀ s s', I s → Q s → P s a → M.step s a = some s' → R s')
    (hkeep : ∀ s b s', I s → Q s → P s b → M.step s b = some s' → b ≠ a → Q s' ∨ R s') :
    e.LeadsTo Q R := by
  intro n hn
  by_contra hnever
  have hnot : ∀ m, n ≤ m → ¬ R (e.state m) := fun m hm hR => hnever ⟨m, hm, hR⟩
  -- as long as `R` does not come to hold, `Q` stays and the label is not taken
  have hstep : ∀ m, n ≤ m → Q (e.state m) → Q (e.state (m + 1)) ∧ e.label m ≠ some a := by
    intro m hm hQ
    have hnext := hnot (m + 1) (hm.trans (Nat.le_succ m))
    cases hlabel : e.label m with
    | none =>
      rw [e.idle m hlabel]
      exact ⟨hQ, by simp⟩
    | some b =>
      obtain ⟨hguard, hs⟩ := e.next m b hlabel
      by_cases hb : b = a
      · subst hb
        exact absurd (htaken _ _ (hinv m) hQ hguard hs) hnext
      · refine ⟨(hkeep _ b _ (hinv m) hQ hguard hs hb).resolve_right hnext, ?_⟩
        simpa using hb
  have hall : ∀ m, n ≤ m → Q (e.state m) := by
    intro m hm
    induction m, hm using Nat.le_induction with
    | base => exact hn
    | succ m hm ih => exact (hstep m hm ih).1
  obtain ⟨m, hm, hlabel⟩ := hfair n fun m hm => henabled _ (hinv m) (hall m hm)
  exact (hstep m hm (hall m hm)).2 hlabel

/-- A label that is treated fairly and whose steps bring the measure down to zero. -/
theorem leadsTo_of_decreasing (μ : σ → ℕ) (hfair : e.Fair a) (hinv : ∀ n, I (e.state n))
    (henabled : ∀ s, I s → Q s → μ s ≠ 0 → M.Enabled P s a)
    (htaken : ∀ s s', I s → Q s → μ s ≠ 0 → P s a → M.step s a = some s' →
      Q s' ∧ μ s' < μ s)
    (hkeep : ∀ s b s', I s → Q s → μ s ≠ 0 → P s b → M.step s b = some s' → b ≠ a →
      Q s' ∧ μ s' = μ s) :
    e.LeadsTo Q fun s => Q s ∧ μ s = 0 := by
  refine .of_measure μ fun k => ?_
  by_cases hk : k = 0
  · subst hk
    exact .of_imp fun s hs => .inl hs
  · refine leadsTo_of_fair hfair hinv ?_ ?_ ?_
    · rintro s hI ⟨hQ, rfl⟩
      exact henabled s hI hQ hk
    · rintro s s' hI ⟨hQ, rfl⟩ hguard hs
      exact .inr (htaken s s' hI hQ hk hguard hs)
    · rintro s b s' hI ⟨hQ, rfl⟩ hguard hs hb
      exact .inl (hkeep s b s' hI hQ hk hguard hs hb)

/-! ## Parts of a system -/

section Part

variable {τ β : Type*} {N : Machine τ β} {P' : τ → β → Prop}

/-- An execution as one part of the system sees it: `f` is the state of the part, and `g` tells
which step of its own, if any, a step of the system is. -/
def part (e : M.Execution P) (f : σ → τ) (g : σ → α → Option β)
    (hinit : ∀ s, M.init s → N.init (f s))
    (hnone : ∀ s a s', M.step s a = some s' → g s a = none → f s' = f s)
    (hsome : ∀ s a s' b, P s a → M.step s a = some s' → g s a = some b →
      P' (f s) b ∧ N.step (f s) b = some (f s')) : N.Execution P' where
  state n := f (e.state n)
  label n := (e.label n).bind (g (e.state n))
  init := hinit _ e.init
  idle n hlabel := by
    cases ha : e.label n with
    | none => rw [e.idle n ha]
    | some a =>
      rw [ha, Option.bind_some] at hlabel
      exact hnone _ a _ (e.next n a ha).2 hlabel
  next n b hlabel := by
    obtain ⟨a, ha, hb⟩ := Option.bind_eq_some_iff.mp hlabel
    obtain ⟨hguard, hs⟩ := e.next n a ha
    exact hsome _ a _ b hguard hs hb

variable {f : σ → τ} {g : σ → α → Option β} {hinit : ∀ s, M.init s → N.init (f s)}
  {hnone : ∀ s a s', M.step s a = some s' → g s a = none → f s' = f s}
  {hsome : ∀ s a s' b, P s a → M.step s a = some s' → g s a = some b →
    P' (f s) b ∧ N.step (f s) b = some (f s')} {b : β}

/-- A step of the part is treated fairly if the step of the system is, and if the system does not
hold it up. -/
theorem fair_part (hg : ∀ s, g s a = some b) (hfair : e.Fair a)
    (henabled : ∀ n, N.Enabled P' (f (e.state n)) b → M.Enabled P (e.state n) a) :
    (e.part f g hinit hnone hsome : N.Execution P').Fair b := by
  intro n hall
  obtain ⟨m, hm, hlabel⟩ := hfair n fun m hm => henabled m (hall m hm)
  refine ⟨m, hm, ?_⟩
  show (e.label m).bind _ = _
  rw [hlabel, Option.bind_some, hg]

/-- The same if the system holds it up, but not for ever, and is strongly fair to it. -/
theorem fair_part_of_stronglyFair (hg : ∀ s, g s a = some b) (hfair : e.StronglyFair a)
    (henabled : ∀ n, (∀ m, n ≤ m → N.Enabled P' (f (e.state m)) b) →
      ∃ m, n ≤ m ∧ M.Enabled P (e.state m) a) :
    (e.part f g hinit hnone hsome : N.Execution P').Fair b := by
  intro n hall
  obtain ⟨m, hm, hlabel⟩ := hfair n fun m hm => henabled m fun l hl => hall l (hm.trans hl)
  refine ⟨m, hm, ?_⟩
  show (e.label m).bind _ = _
  rw [hlabel, Option.bind_some, hg]

end Part

/-! ## Runs that end -/

/-- The beginning of a run. -/
theorem exists_take {s₀ s : σ} {as : List α} (h : M.Runs P s₀ as s) (n : ℕ) :
    ∃ t, M.Runs P s₀ (as.take n) t := by
  induction h with
  | start h => exact ⟨s₀, by simpa using .start h⟩
  | @step as s s' a hr hp hs ih =>
    by_cases hn : n ≤ as.length
    · rwa [List.take_append_of_le_length hn]
    · rw [List.take_of_length_le (by simp; omega)]
      exact ⟨s', hr.step hp hs⟩

/-- A run after which nothing happens any more. -/
def ofRuns {s₀ s : σ} {as : List α} (h : M.Runs P s₀ as s) : M.Execution P where
  state n := (M.run s₀ (as.take n)).getD s₀
  label n := as[n]?
  init := h.init
  idle n hlabel := by
    rw [List.take_add_one, hlabel, Option.toList_none, List.append_nil]
  next n a hlabel := by
    obtain ⟨t', ht'⟩ := exists_take h (n + 1)
    have hrun' := ht'.run_eq
    rw [List.take_add_one, hlabel, Option.toList_some] at ht' hrun' ⊢
    obtain ⟨t, ht, hguard, hs⟩ := ht'.exists_last
    rw [ht.run_eq, hrun', Option.getD_some, Option.getD_some]
    exact ⟨hguard, hs⟩

theorem ofRuns_state {s₀ s : σ} {as : List α} (h : M.Runs P s₀ as s) (hn : as.length ≤ n) :
    (ofRuns h).state n = s := by
  show (M.run s₀ (as.take n)).getD s₀ = s
  rw [List.take_of_length_le hn, h.run_eq, Option.getD_some]

/-- What is not enabled at the end is treated fairly. -/
theorem fair_ofRuns {s₀ s : σ} {as : List α} (h : M.Runs P s₀ as s) (hend : ¬ M.Enabled P s a) :
    (ofRuns h).Fair a := by
  refine (stronglyFair_of_not_enabled as.length fun m hm => ?_).fair
  rwa [ofRuns_state h hm]

/-- A run after which one label is taken over and over. -/
def forever {s₀ s : σ} {as : List α} {f : σ → σ} (h : M.Runs P s₀ as s)
    (hf : ∀ s, P s a ∧ M.step s a = some (f s)) : M.Execution P where
  state n := f^[n - as.length] ((M.run s₀ (as.take n)).getD s₀)
  label n := if n < as.length then as[n]? else some a
  init := by simpa using h.init
  idle n hlabel := by
    split at hlabel
    next hlt => exact absurd hlabel (by simp [hlt])
    next => cases hlabel
  next n b hlabel := by
    split at hlabel
    next hlt =>
      -- inside the run
      rw [Nat.sub_eq_zero_of_le hlt.le, Nat.sub_eq_zero_of_le hlt]
      exact (ofRuns h).next n b hlabel
    next hge =>
      obtain rfl := Option.some.inj hlabel
      have hle := not_lt.mp hge
      rw [List.take_of_length_le hle, List.take_of_length_le (hle.trans (Nat.le_succ n)),
        Nat.succ_sub hle, Function.iterate_succ_apply']
      exact hf _

theorem fair_forever {s₀ s : σ} {as : List α} {f : σ → σ} (h : M.Runs P s₀ as s)
    (hf : ∀ s, P s a ∧ M.step s a = some (f s)) : (forever h hf).Fair a := by
  intro n _
  exact ⟨max n as.length, le_max_left _ _, if_neg (not_lt.mpr (le_max_right _ _))⟩

/-- What holds at the end of the run and is kept by the label holds from then on. -/
theorem forever_keeps {s₀ s : σ} {as : List α} {f : σ → σ} (h : M.Runs P s₀ as s)
    (hf : ∀ s, P s a ∧ M.step s a = some (f s)) (hs : Q s) (hkeep : ∀ s, Q s → Q (f s))
    (hn : as.length ≤ n) : Q ((forever h hf).state n) := by
  show Q (f^[n - as.length] ((M.run s₀ (as.take n)).getD s₀))
  rw [List.take_of_length_le hn, h.run_eq, Option.getD_some]
  exact Function.Iterate.rec Q hs hkeep _

theorem forever_state {s₀ s : σ} {as : List α} {f : σ → σ} (h : M.Runs P s₀ as s)
    (hf : ∀ s, P s a ∧ M.step s a = some (f s)) : (forever h hf).state as.length = s := by
  show f^[as.length - as.length] ((M.run s₀ (as.take as.length)).getD s₀) = s
  rw [Nat.sub_self, List.take_length, h.run_eq, Option.getD_some]
  rfl

end Execution

end Machine
