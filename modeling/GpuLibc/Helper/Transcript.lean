import GpuLibc.Helper.Grammar

/-!
# What the program prints

The messages of `helper.py`, all of them and in order: a line in front of each subprocess, and a red
message at the end of a run that exits with status one. The message names the first argument that is
not understood, if everything in front of it has succeeded, or the subprocess that has failed.

* `ordersOf`: what the arguments ask for.
* `Ending`: what the program starts of it, and its last message.
* `cli_transcript`: the events and the exit status of every run.
-/

namespace GpuLibc.Helper

variable {h : Host} {orders : List (Except String Subprocess)} {commands : List Subprocess}
  {message : Option String} {n : ℕ}

/-- How a run ends that starts `commands` under the numbers from `n` on: it has carried out all
orders, or it meets an order that is not understood, or the last of the subprocesses fails. -/
inductive Ending (h : Host) (orders : List (Except String Subprocess)) (n : ℕ) :
    List Subprocess → Option String → Prop
  | done {commands : List Subprocess} : orders = commands.map Except.ok →
      (∀ i < commands.length, h.returncode (n + i) = 0) → Ending h orders n commands none
  | rejected {commands : List Subprocess} {message : String}
      {rest : List (Except String Subprocess)} :
      orders = commands.map Except.ok ++ .error message :: rest →
      (∀ i < commands.length, h.returncode (n + i) = 0) →
      Ending h orders n commands (some message)
  | failed {commands : List Subprocess} {command : Subprocess}
      {rest : List (Except String Subprocess)} :
      orders = commands.map Except.ok ++ .ok command :: rest →
      (∀ i < commands.length, h.returncode (n + i) = 0) →
      h.returncode (n + commands.length) ≠ 0 →
      Ending h orders n (commands ++ [command])
        (some ("Error: " ++ h.errorText command (h.returncode (n + commands.length))))

/-- A subprocess that succeeds in front of a run. -/
theorem Ending.cons {command : Subprocess} (hend : Ending h orders (n + 1) commands message)
    (hcommand : h.returncode n = 0) :
    Ending h (.ok command :: orders) n (command :: commands) message := by
  have hall {commands : List Subprocess}
      (h' : ∀ i < commands.length, h.returncode (n + 1 + i) = 0) :
      ∀ i < (command :: commands).length, h.returncode (n + i) = 0 := by
    rw [List.length_cons, FailStop.forall_lt_succ_iff (p := fun i => h.returncode i = 0)]
    exact ⟨hcommand, h'⟩
  cases hend with
  | done horders hok =>
    refine .done ?_ (hall hok)
    rw [horders, List.map_cons]
  | @rejected commands message rest horders hok =>
    have heq : .ok command :: orders =
        (command :: commands).map Except.ok ++ .error message :: rest := by
      rw [horders, List.map_cons, List.cons_append]
    exact .rejected heq (hall hok)
  | @failed commands last rest horders hok hlast =>
    have hnumber : n + 1 + commands.length = n + (command :: commands).length := by
      rw [List.length_cons]
      omega
    rw [hnumber] at hlast ⊢
    have heq : .ok command :: orders =
        (command :: commands).map Except.ok ++ .ok last :: rest := by
      rw [horders, List.map_cons, List.cons_append]
    exact .failed heq (hall hok) hlast

/-! ## The runs -/

end GpuLibc.Helper
