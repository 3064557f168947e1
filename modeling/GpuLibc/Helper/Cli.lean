import Mathlib.Data.Int.Notation
import Mathlib.Order.Nat
import GpuLibc.Lib.FailStop

/-!
# The command line of `helper.py`

The arguments behind the first one are a sequence of commands, which two nested loops consume. Every
subprocess can fail, and the program then exits.

## Main definitions

* `cli`: the program as it is, with its messages;
* `segments`: the arguments read as segments of the grammar.

## Main results

* `CarriesOut`: what a part of the program does, with a rule for each way to build one;
* `commandLoop_carriesOut`: the loops carry out the longest sequence of well-formed segments;
* `interpret_spec`: the subprocesses and the exit status of the whole program.
-/

namespace GpuLibc.Helper

/-- `str.startswith`. -/
def startsWith (text start : String) : Bool := start.toList.isPrefixOf text.toList

/-- An absolute path of `pathlib`, by its parts. -/
structure Path where
  parts : List String
deriving DecidableEq

namespace Path

/-- The parts of a text, without empty ones and single dots. -/
def partsOf (text : String) : List String :=
  (text.splitOn "/").filter fun part => part ≠ "" ∧ part ≠ "."

/-- `Path.__truediv__`; an absolute right-hand side replaces the path. -/
def truediv (p : Path) (text : String) : Path :=
  if startsWith text "/" then ⟨partsOf text⟩ else ⟨p.parts ++ partsOf text⟩

/-- `Path.__str__`. -/
def str (p : Path) : String := "/" ++ "/".intercalate p.parts

end Path

/-- A call of `subprocess.run`. -/
structure Subprocess where
  commandList : List String
  workingDirectory : Path
deriving DecidableEq

/-- What the program does to the outside. -/
inductive Event
  | echo (text : String)
  /-- A message in red. -/
  | secho (text : String)
  | start (command : Subprocess)
deriving DecidableEq

/-- The machine that the program runs on. -/
structure Host where
  /-- `REPO_ROOT_DIRECTORY`. -/
  repoRoot : Path
  /-- `Path.resolve`. -/
  resolve : Path → Path
  /-- The return code of each subprocess, numbered in the order in which they are started. -/
  returncode : ℕ → ℤ
  /-- The text of the `CalledProcessError` for a subprocess and its return code. -/
  errorText : Subprocess → ℤ → String

/-- A part of the program: it appends to the list of events, and `sys.exit` ends it with a code. -/
abbrev Script := ExceptT ℕ (StateM (List Event))

/-- The subprocesses started so far. -/
def subprocesses (log : List Event) : List Subprocess :=
  log.filterMap fun
    | .start command => some command
    | _ => none

def emit (e : Event) : Script Unit := modify fun log => log ++ [e]

def sysExit (code : ℕ) : Script Unit := throw code

section Constants

variable (h : Host)

/-- `SCRIPTS_DIRECTORY`. -/
def scriptsDirectory : Path := h.repoRoot.truediv "sh-scripts"

/-- `SET_ENV_SCRIPT_PATH`. -/
def setEnvScriptPath : Path := h.resolve ((scriptsDirectory h).truediv "set_env.sh")

/-- `INSTALL_DIRECTORY`. -/
def installDirectory : Path :=
  ((h.repoRoot.truediv "llvm-infra").truediv "llvm-installs").truediv "apptainer-Debug"

end Constants

/-! ## Subprocesses -/

/-- `execute_command`, for a subprocess that can be started. -/
def executeCommand (h : Host) (command : Subprocess) : Script Unit := do
  emit (.echo ("Executing in " ++ command.workingDirectory.str ++ ":\n  " ++
    " ".intercalate command.commandList))
  let returncode := h.returncode (subprocesses (← get)).length
  emit (.start command)
  if returncode ≠ 0 then
    emit (.secho ("Error: " ++ h.errorText command returncode))
    sysExit 1

/-- `run_in_environment`. -/
def runInEnvironment (h : Host) (command : Subprocess) : Script Unit := executeCommand h command

/-- `build_script_path`. -/
def buildScriptPath (h : Host) : Path := (scriptsDirectory h).truediv "build_llvm.sh"

/-- What `build_application` runs. -/
def buildCommand (h : Host) (clean runCmake : Bool) : Subprocess where
  commandList := (buildScriptPath h).str ::
    ((if clean then ["--clean"] else []) ++ if runCmake then ["--run-cmake"] else [])
  workingDirectory := h.repoRoot

/-- `build_application`. -/
def buildApplication (h : Host) (clean runCmake : Bool) : Script Unit :=
  runInEnvironment h (buildCommand h clean runCmake)

/-- What `run_ninja_command` runs. -/
def ninjaCommand (h : Host) : Subprocess where
  commandList := ["bash", "-c", "cd " ++ (installDirectory h).str ++ " && ninja"]
  workingDirectory := h.repoRoot

/-- `run_ninja_command`. -/
def runNinjaCommand (h : Host) : Script Unit := runInEnvironment h (ninjaCommand h)

/-- What `run_file_build_command` runs. -/
def fileBuildCommand (h : Host) : Subprocess where
  commandList := ["bash", "-c",
    "cd " ++ (installDirectory h).str ++ " && ninja copy_ompfile_headers libompfile.so"]
  workingDirectory := h.repoRoot

/-- `run_file_build_command`. -/
def runFileBuildCommand (h : Host) : Script Unit := runInEnvironment h (fileBuildCommand h)

/-- What `run_application` runs. -/
def applicationCommand (h : Host) (applicationFolder : String) : Subprocess where
  commandList := ["bash", "-c", "source " ++ (setEnvScriptPath h).str ++ " " ++
    (installDirectory h).str ++ " && ./run.sh"]
  workingDirectory :=
    h.resolve ((h.repoRoot.truediv "application").truediv applicationFolder)

/-- `run_application`. -/
def runApplication (h : Host) (applicationFolder : String) : Script Unit :=
  runInEnvironment h (applicationCommand h applicationFolder)

/-! ## The loops -/

/-- A message about an argument and the end of the program. -/
def reject (message : String) : Script Unit := do
  emit (.secho message)
  sysExit 1

/-- The inner loop: the options of a build and the arguments that are left, or the first flag that
is unknown. -/
def buildFlags : List String → Bool → Bool → Except String (Bool × Bool × List String)
  | [], clean, runCmake => .ok (clean, runCmake, [])
  | flag :: leftoverArgs, clean, runCmake =>
    if startsWith flag "--" then
      if flag = "--clean" then buildFlags leftoverArgs true runCmake
      else if flag = "--run-cmake" then buildFlags leftoverArgs clean true
      else .error flag
    else .ok (clean, runCmake, flag :: leftoverArgs)

/-- The inner loop never adds an argument. -/
theorem length_le_of_buildFlags {args leftover : List String} {clean runCmake c r : Bool}
    (h : buildFlags args clean runCmake = .ok (c, r, leftover)) :
    leftover.length ≤ args.length := by
  induction args generalizing clean runCmake with
  | nil =>
    cases h
    exact le_rfl
  | cons flag rest ih =>
    rw [buildFlags] at h
    split_ifs at h
    · exact (ih h).trans (Nat.le_succ _)
    · exact (ih h).trans (Nat.le_succ _)
    · cases h
      exact le_rfl

/-- The outer loop of `cli`, which ends because each round takes an argument away. -/
def commandLoop (h : Host) (applicationFolder : String) : List String → Script Unit
  | [] => pure ()
  | cmd :: leftoverArgs =>
    if cmd = "build" then
      match _hflags : buildFlags leftoverArgs false false with
      | .error flag => reject ("Unknown option: " ++ flag)
      | .ok (clean, runCmake, leftoverArgs') => do
        buildApplication h clean runCmake
        commandLoop h applicationFolder leftoverArgs'
    else if cmd = "run" then do
      runApplication h applicationFolder
      commandLoop h applicationFolder leftoverArgs
    else if cmd = "ninja" then do
      runNinjaCommand h
      commandLoop h applicationFolder leftoverArgs
    else if cmd = "file-build" then do
      runFileBuildCommand h
      commandLoop h applicationFolder leftoverArgs
    else reject ("Unknown command: " ++ cmd)
termination_by args => args.length
decreasing_by
  · exact Nat.lt_succ_of_le (length_le_of_buildFlags ‹_›)
  all_goals exact Nat.lt_succ_self _

/-- `cli`; `args` is `ctx.args`. -/
def cli (h : Host) (primaryArg : String) (args : List String) : Script Unit :=
  if primaryArg = "build-llvm" then
    if args ≠ [] then reject ("Unknown option: " ++ " ".intercalate args)
    else buildApplication h true false
  else if args = [] then runApplication h primaryArg
  else commandLoop h primaryArg args

/-- The result of a part of the program after the events of `log`, and all events up to its end. -/
def Script.exec {α : Type} (x : Script α) (log : List Event) : Except ℕ α × List Event :=
  StateT.run (ExceptT.run x) log

/-- The exit status of the process; a `cli` that returns gives zero. -/
def exitStatus : Except ℕ Unit → ℕ
  | .ok () => 0
  | .error code => code

/-- What can be seen of a run of the program. -/
structure Outcome where
  exitStatus : ℕ
  executed : List Subprocess
deriving DecidableEq

/-- The program on its arguments. -/
def interpret (h : Host) (primaryArg : String) (args : List String) : Outcome where
  exitStatus := exitStatus ((cli h primaryArg args).exec []).1
  executed := subprocesses ((cli h primaryArg args).exec []).2

/-! ## The grammar -/

/-- The argument is read as a flag of `build`. -/
def isFlag (arg : String) : Bool := startsWith arg "--"

/-- A flag of `build` that exists. -/
def KnownFlag (flag : String) : Prop := flag = "--clean" ∨ flag = "--run-cmake"

instance (flag : String) : Decidable (KnownFlag flag) := inferInstanceAs (Decidable (_ ∨ _))

/-- A segment of the arguments. -/
inductive Segment
  | run
  | ninja
  | fileBuild
  | build (flags : List String)
  /-- An argument that is no command. -/
  | other (cmd : String)
deriving DecidableEq

/-- The segment that an argument other than `build` makes. -/
def Segment.ofArg (arg : String) : Segment :=
  if arg = "run" then .run
  else if arg = "ninja" then .ninja
  else if arg = "file-build" then .fileBuild
  else .other arg

/-- The arguments read as segments: a `build` takes all flags that follow it. -/
def segments : List String → List Segment
  | [] => []
  | arg :: args =>
    if arg = "build" then .build (args.takeWhile isFlag) :: segments (args.dropWhile isFlag)
    else .ofArg arg :: segments args
termination_by args => args.length
decreasing_by
  · exact Nat.lt_succ_of_le (List.dropWhile_sublist isFlag).length_le
  · exact Nat.lt_succ_self _

namespace Segment

/-- The segment is a command, whose flags exist. -/
def WellFormed : Segment → Prop
  | build flags => ∀ flag ∈ flags, KnownFlag flag
  | other _ => False
  | _ => True

instance : DecidablePred WellFormed
  | run | ninja | fileBuild => inferInstanceAs (Decidable True)
  | build flags => inferInstanceAs (Decidable (∀ flag ∈ flags, KnownFlag flag))
  | other _ => inferInstanceAs (Decidable False)

/-- The subprocess of a well-formed segment, written out: what the grammar asks for, to be compared
with what the functions above run. -/
def subprocess (h : Host) (applicationFolder : String) (seg : Segment) : Subprocess :=
  let installation :=
    ((h.repoRoot.truediv "llvm-infra").truediv "llvm-installs").truediv "apptainer-Debug"
  let setEnv := h.resolve ((h.repoRoot.truediv "sh-scripts").truediv "set_env.sh")
  match seg with
  | run =>
    { commandList := ["bash", "-c",
        "source " ++ setEnv.str ++ " " ++ installation.str ++ " && ./run.sh"]
      workingDirectory :=
        h.resolve ((h.repoRoot.truediv "application").truediv applicationFolder) }
  | ninja =>
    { commandList := ["bash", "-c", "cd " ++ installation.str ++ " && ninja"]
      workingDirectory := h.repoRoot }
  | fileBuild =>
    { commandList := ["bash", "-c",
        "cd " ++ installation.str ++ " && ninja copy_ompfile_headers libompfile.so"]
      workingDirectory := h.repoRoot }
  | build flags =>
    { commandList :=
        [((h.repoRoot.truediv "sh-scripts").truediv "build_llvm.sh").str] ++
          (if "--clean" ∈ flags then ["--clean"] else []) ++
          (if "--run-cmake" ∈ flags then ["--run-cmake"] else [])
      workingDirectory := h.repoRoot }
  -- not well formed
  | other _ => { commandList := [], workingDirectory := h.repoRoot }

/-- A build runs the script with the flags that it has seen. -/
theorem subprocess_build (h : Host) (applicationFolder : String) (flags : List String) :
    (build flags).subprocess h applicationFolder =
      buildCommand h ("--clean" ∈ flags) ("--run-cmake" ∈ flags) := by
  by_cases hclean : "--clean" ∈ flags <;> by_cases hcmake : "--run-cmake" ∈ flags <;>
    simp only [subprocess, buildCommand, buildScriptPath, scriptsDirectory, hclean, hcmake, if_true,
      if_false, decide_true, decide_false, Bool.false_eq_true, List.nil_append, List.append_nil,
      List.cons_append]

end Segment

/-- The subprocesses of the longest sequence of well-formed segments. -/
def plan (h : Host) (applicationFolder : String) (segs : List Segment) : List Subprocess :=
  (segs.takeWhile fun seg => seg.WellFormed).map (Segment.subprocess h applicationFolder)

/-! ## Rules for the parts of the program -/

variable {h : Host} {applicationFolder : String}

/-- From every point on, `x` carries out the subprocesses up to the first failure; it returns if
`good` holds and none fails, and exits with status one otherwise. -/
def CarriesOut (h : Host) (x : Script Unit) (commands : List Subprocess) (good : Prop) : Prop :=
  ∀ log, subprocesses (x.exec log).2 = subprocesses log ++
      FailStop.run (fun i => h.returncode i = 0) commands (subprocesses log).length ∧
    ((x.exec log).1 = .ok () ↔
      good ∧ ∀ j < commands.length, h.returncode ((subprocesses log).length + j) = 0) ∧
    ∀ code, (x.exec log).1 = .error code → code = 1

theorem exec_bind {α β : Type} (x : Script α) (k : α → Script β) (log : List Event) :
    (x >>= k).exec log =
      match x.exec log with
      | (.ok a, log') => (k a).exec log'
      | (.error code, log') => (.error code, log') := by
  have hbind : (x >>= k).exec log = ExceptT.bindCont k (x.exec log).1 (x.exec log).2 := rfl
  rw [hbind]
  rcases x.exec log with ⟨_ | _, log'⟩ <;> rfl

theorem subprocesses_append (log log' : List Event) :
    subprocesses (log ++ log') = subprocesses log ++ subprocesses log' :=
  List.filterMap_append

/-- A part of the program that returns does not exit. -/
theorem ok_ne_error {code : ℕ} : ¬ (Except.ok () : Except ℕ Unit) = .error code :=
  fun hresult => nomatch hresult

theorem carriesOut_pure : CarriesOut h (pure ()) [] True := by
  intro log
  refine ⟨(List.append_nil _).symm, ?_, fun code => ok_ne_error.elim⟩
  exact iff_of_true rfl ⟨trivial, fun j hj => absurd hj (Nat.not_lt_zero j)⟩

theorem carriesOut_reject (message : String) : CarriesOut h (reject message) [] False := by
  intro log
  have hexec : (reject message).exec log = (.error 1, log ++ [.secho message]) := rfl
  rw [hexec]
  refine ⟨?_, iff_of_false (fun hok => ok_ne_error hok.symm) And.left, ?_⟩
  · rw [subprocesses_append]
    rfl
  · intro code hcode
    exact (Except.error.inj hcode).symm

theorem carriesOut_executeCommand (command : Subprocess) :
    CarriesOut h (executeCommand h command) [command] True := by
  intro log
  let echo := Event.echo ("Executing in " ++ command.workingDirectory.str ++ ":\n  " ++
    " ".intercalate command.commandList)
  have hecho : subprocesses (log ++ [echo]) = subprocesses log := by
    rw [subprocesses_append]
    exact List.append_nil _
  have hstart : subprocesses (log ++ [echo] ++ [.start command]) =
      subprocesses log ++ [command] := by
    rw [subprocesses_append, hecho]
    rfl
  -- the message in front of the call is no subprocess, so the number of the call is unchanged
  have hexec : (executeCommand h command).exec log =
      (if h.returncode (subprocesses (log ++ [echo])).length ≠ 0 then
        reject ("Error: " ++
          h.errorText command (h.returncode (subprocesses (log ++ [echo])).length))
      else pure ()).exec (log ++ [echo] ++ [.start command]) := rfl
  have hlast : (∀ j < [command].length, h.returncode ((subprocesses log).length + j) = 0) ↔
      h.returncode (subprocesses log).length = 0 := by
    refine ⟨fun hall => hall 0 (Nat.zero_lt_succ 0), fun hzero j hj => ?_⟩
    rwa [Nat.lt_one_iff.mp hj]
  rw [hexec, hecho, true_and, hlast, FailStop.run_singleton]
  by_cases hzero : h.returncode (subprocesses log).length = 0
  · rw [if_neg (not_not.mpr hzero)]
    exact ⟨hstart, iff_of_true rfl hzero, fun code => ok_ne_error.elim⟩
  · -- the message on the failure starts no subprocess
    rw [if_pos hzero]
    obtain ⟨hlog, hok, herror⟩ := carriesOut_reject (h := h)
      ("Error: " ++ h.errorText command (h.returncode (subprocesses log).length))
      (log ++ [echo] ++ [.start command])
    refine ⟨?_, iff_of_false (fun hret => (hok.mp hret).1) hzero, herror⟩
    rw [hlog, hstart]
    exact List.append_nil _

/-- One part after the other. -/
theorem CarriesOut.bind {x y : Script Unit} {cs₁ cs₂ : List Subprocess} {good : Prop}
    (hx : CarriesOut h x cs₁ True) (hy : CarriesOut h y cs₂ good) :
    CarriesOut h (x >>= fun _ => y) (cs₁ ++ cs₂) good := by
  intro log
  obtain ⟨hlog, hok, herror⟩ := hx log
  rw [true_and] at hok
  rw [exec_bind, FailStop.run_append]
  cases hresult : x.exec log with
  | mk result log' =>
  rw [hresult] at hlog hok herror
  dsimp only at hlog hok herror
  cases result with
  | error code =>
    -- `x` has exited on a failure, and `y` is not run
    have hfail : ¬ ∀ j < cs₁.length, h.returncode ((subprocesses log).length + j) = 0 :=
      fun hall => ok_ne_error (hok.mpr hall).symm
    dsimp only
    rw [if_neg hfail]
    refine ⟨hlog, iff_of_false (fun hok => ok_ne_error hok.symm) ?_, fun c hc => herror c hc⟩
    rintro ⟨-, hall⟩
    refine hfail fun j hj => hall j ?_
    rw [List.length_append]
    omega
  | ok =>
    -- all subprocesses of `x` have succeeded, so `y` goes on with the number behind them
    have hall := hok.mp rfl
    rw [FailStop.run_eq_self hall] at hlog
    dsimp only
    obtain ⟨hlog₂, hok₂, herror₂⟩ := hy log'
    rw [hlog, List.length_append] at hlog₂ hok₂
    rw [if_pos hall, hlog₂, hok₂, List.append_assoc, List.length_append]
    refine ⟨rfl, and_congr_right fun _ => ?_, herror₂⟩
    have hsplit := FailStop.forall_lt_add_iff (p := fun i => h.returncode i = 0)
      (n := (subprocesses log).length) (k := cs₁.length) (m := cs₂.length)
    exact (hsplit.trans (and_iff_right hall)).symm

theorem CarriesOut.congr {x : Script Unit} {cs : List Subprocess} {good good' : Prop}
    (hx : CarriesOut h x cs good) (hgood : good ↔ good') : CarriesOut h x cs good' := by
  rwa [← propext hgood]

/-! ## The loops carry out the plan -/

theorem buildFlags_cons (flag : String) (rest : List String) (clean runCmake : Bool) :
    buildFlags (flag :: rest) clean runCmake =
      if isFlag flag = true then
        if flag = "--clean" then buildFlags rest true runCmake
        else if flag = "--run-cmake" then buildFlags rest clean true
        else .error flag
      else .ok (clean, runCmake, flag :: rest) := rfl

/-- The inner loop passes over flags that exist and remembers which of them it has seen. -/
theorem buildFlags_of_known {args : List String}
    (hknown : ∀ flag ∈ args.takeWhile isFlag, KnownFlag flag) (clean runCmake : Bool) :
    buildFlags args clean runCmake =
      .ok (clean || "--clean" ∈ args.takeWhile isFlag,
        runCmake || "--run-cmake" ∈ args.takeWhile isFlag, args.dropWhile isFlag) := by
  induction args generalizing clean runCmake with
  | nil => simp [buildFlags]
  | cons flag rest ih =>
    by_cases hflag : isFlag flag = true
    · -- the flag belongs to the build, and the options remember it
      rw [List.takeWhile_cons_of_pos hflag] at hknown ⊢
      rw [List.dropWhile_cons_of_pos hflag, buildFlags_cons, if_pos hflag]
      obtain ⟨hfirst, hrest⟩ := List.forall_mem_cons.mp hknown
      by_cases hclean : flag = "--clean"
      · rw [if_pos hclean, ih hrest]
        simp [hclean]
      · have hcmake : flag = "--run-cmake" := hfirst.resolve_left hclean
        rw [if_neg hclean, if_pos hcmake, ih hrest]
        simp [hcmake]
    · -- the argument is left for the outer loop
      rw [List.takeWhile_cons_of_neg hflag, List.dropWhile_cons_of_neg hflag,
        buildFlags_cons, if_neg hflag]
      simp

/-- The inner loop stops at a flag that does not exist. -/
theorem buildFlags_of_unknown {args : List String}
    (hunknown : ¬ ∀ flag ∈ args.takeWhile isFlag, KnownFlag flag) (clean runCmake : Bool) :
    ∃ flag, buildFlags args clean runCmake = .error flag := by
  induction args generalizing clean runCmake with
  | nil => exact absurd (by simp) hunknown
  | cons flag rest ih =>
    -- an argument that is no flag would end the run of flags before the unknown one
    have hflag : isFlag flag = true := by
      by_contra hflag
      rw [List.takeWhile_cons_of_neg hflag] at hunknown
      exact hunknown (by simp)
    rw [List.takeWhile_cons_of_pos hflag, List.forall_mem_cons, not_and_or] at hunknown
    rw [buildFlags_cons, if_pos hflag]
    by_cases hclean : flag = "--clean"
    · rw [if_pos hclean]
      exact ih (hunknown.resolve_left (not_not.mpr (.inl hclean))) true runCmake
    · rw [if_neg hclean]
      by_cases hcmake : flag = "--run-cmake"
      · rw [if_pos hcmake]
        exact ih (hunknown.resolve_left (not_not.mpr (.inr hcmake))) clean true
      · rw [if_neg hcmake]
        exact ⟨flag, rfl⟩

theorem plan_cons_of_wellFormed {seg : Segment} {segs : List Segment} (hwell : seg.WellFormed) :
    plan h applicationFolder (seg :: segs) =
      [seg.subprocess h applicationFolder] ++ plan h applicationFolder segs := by
  rw [plan, List.takeWhile_cons_of_pos (by simpa using hwell)]
  rfl

theorem plan_cons_of_not_wellFormed {seg : Segment} {segs : List Segment}
    (hwell : ¬ seg.WellFormed) : plan h applicationFolder (seg :: segs) = [] := by
  rw [plan, List.takeWhile_cons_of_neg (by simpa using hwell)]
  rfl

theorem commandLoop_build (args : List String) :
    commandLoop h applicationFolder ("build" :: args) =
      match buildFlags args false false with
      | .error flag => reject ("Unknown option: " ++ flag)
      | .ok (clean, runCmake, leftoverArgs) =>
        buildApplication h clean runCmake >>= fun _ =>
          commandLoop h applicationFolder leftoverArgs := by
  rw [commandLoop, if_pos rfl]
  rcases buildFlags args false false with _ | ⟨clean, runCmake, leftoverArgs⟩ <;> rfl

/-- A well-formed segment in front of a sequence that is carried out. -/
theorem CarriesOut.cons {x y : Script Unit} {seg : Segment} {segs : List Segment}
    (hx : CarriesOut h x [seg.subprocess h applicationFolder] True) (hwell : seg.WellFormed)
    (hy : CarriesOut h y (plan h applicationFolder segs) (∀ s ∈ segs, s.WellFormed)) :
    CarriesOut h (x >>= fun _ => y) (plan h applicationFolder (seg :: segs))
      (∀ s ∈ seg :: segs, s.WellFormed) := by
  rw [plan_cons_of_wellFormed hwell]
  apply (hx.bind hy).congr
  exact (List.forall_mem_cons.trans (and_iff_right hwell)).symm

/-- A segment that is not well formed ends the sequence. -/
theorem carriesOut_reject_cons {seg : Segment} {segs : List Segment} (message : String)
    (hwell : ¬ seg.WellFormed) :
    CarriesOut h (reject message) (plan h applicationFolder (seg :: segs))
      (∀ s ∈ seg :: segs, s.WellFormed) := by
  rw [plan_cons_of_not_wellFormed hwell]
  apply (carriesOut_reject message).congr
  exact iff_of_false id fun hall => hwell (hall seg List.mem_cons_self)

/-- The loops carry out the plan and return if every segment is well formed. -/
theorem commandLoop_carriesOut (args : List String) :
    CarriesOut h (commandLoop h applicationFolder args)
      (plan h applicationFolder (segments args)) (∀ seg ∈ segments args, seg.WellFormed) := by
  -- along the segments, as the inner loop may take several arguments
  induction args using segments.induct with
  | case1 =>
    rw [commandLoop, segments]
    apply carriesOut_pure.congr
    exact iff_of_true trivial (List.forall_mem_nil _)
  | case2 args ih =>
    rw [commandLoop_build, segments, if_pos rfl]
    by_cases hknown : ∀ flag ∈ args.takeWhile isFlag, KnownFlag flag
    · rw [buildFlags_of_known hknown, Bool.false_or, Bool.false_or]
      refine .cons ?_ hknown ih
      rw [Segment.subprocess_build]
      exact carriesOut_executeCommand _
    · obtain ⟨flag, hflag⟩ := buildFlags_of_unknown hknown false false
      rw [hflag]
      exact carriesOut_reject_cons _ hknown
  | case3 arg args hbuild ih =>
    rw [commandLoop, segments, if_neg hbuild, if_neg hbuild, Segment.ofArg]
    by_cases hrun : arg = "run"
    · rw [if_pos hrun, if_pos hrun]
      exact .cons (carriesOut_executeCommand _) trivial ih
    by_cases hninja : arg = "ninja"
    · rw [if_neg hrun, if_neg hrun, if_pos hninja, if_pos hninja]
      exact .cons (carriesOut_executeCommand _) trivial ih
    by_cases hfile : arg = "file-build"
    · rw [if_neg hrun, if_neg hrun, if_neg hninja, if_neg hninja, if_pos hfile, if_pos hfile]
      exact .cons (carriesOut_executeCommand _) trivial ih
    · rw [if_neg hrun, if_neg hrun, if_neg hninja, if_neg hninja, if_neg hfile, if_neg hfile]
      exact carriesOut_reject_cons _ id

/-- What a part of the program that carries out `commands` makes of the whole run. -/
theorem CarriesOut.outcome {x : Script Unit} {commands : List Subprocess} {good : Prop}
    (hx : CarriesOut h x commands good) :
    subprocesses (x.exec []).2 = FailStop.run (fun i => h.returncode i = 0) commands 0 ∧
      (exitStatus (x.exec []).1 = 0 ↔
        good ∧ ∀ j < commands.length, h.returncode j = 0) := by
  obtain ⟨hlog, hok, herror⟩ := hx []
  refine ⟨hlog, ?_⟩
  have hnil : subprocesses [] = [] := rfl
  simp only [hnil, List.length_nil, Nat.zero_add] at hok
  rw [← hok]
  cases hresult : (x.exec []).1 with
  | ok => exact iff_of_true rfl rfl
  | error code =>
    rw [herror code hresult]
    exact iff_of_false Nat.one_ne_zero fun hret => ok_ne_error hret.symm

/-- The subprocesses that the arguments ask for: the application is run when there are none, and
the longest sequence of well-formed segments is carried out otherwise. -/
def commands (h : Host) (applicationFolder : String) (args : List String) : List Subprocess :=
  if args = [] then [Segment.run.subprocess h applicationFolder]
  else plan h applicationFolder (segments args)

theorem cli_carriesOut (args : List String) (hfolder : applicationFolder ≠ "build-llvm") :
    CarriesOut h (cli h applicationFolder args) (commands h applicationFolder args)
      (∀ seg ∈ segments args, seg.WellFormed) := by
  rw [cli, if_neg hfolder, commands]
  by_cases hargs : args = []
  · -- without a further argument the application is run once
    subst hargs
    rw [if_pos rfl, if_pos rfl, segments]
    apply (carriesOut_executeCommand _).congr
    exact iff_of_true trivial (List.forall_mem_nil _)
  · rw [if_neg hargs, if_neg hargs]
    exact commandLoop_carriesOut args

/-- For every first argument other than `build-llvm`, all further arguments and all return codes,
the program carries out the subprocesses that the arguments ask for in order and each once, up to
the first one that fails, and its exit status is zero if and only if all segments are well formed
and all subprocesses that it has started have succeeded. -/
theorem interpret_spec (h : Host) (applicationFolder : String) (args : List String)
    (hfolder : applicationFolder ≠ "build-llvm") :
    (interpret h applicationFolder args).executed =
        FailStop.run (fun i => h.returncode i = 0) (commands h applicationFolder args) 0 ∧
      ((interpret h applicationFolder args).exitStatus = 0 ↔
        (∀ seg ∈ segments args, seg.WellFormed) ∧
          ∀ i < (interpret h applicationFolder args).executed.length, h.returncode i = 0) := by
  obtain ⟨hexecuted, hstatus⟩ := (cli_carriesOut (h := h) args hfolder).outcome
  refine ⟨hexecuted, hstatus.trans (and_congr_right fun _ => ?_)⟩
  have hall := FailStop.forall_lt_length_run_iff (fun i => h.returncode i = 0)
    (commands h applicationFolder args) 0
  simp only [Nat.zero_add] at hall
  rw [← hall, ← hexecuted]
  exact Iff.rfl

/-- A machine on which every subprocess succeeds. -/
def quietHost : Host where
  repoRoot := ⟨["repo"]⟩
  resolve p := p
  returncode _ := 0
  errorText _ _ := ""

/-- An argument that is no command ends the program behind the two commands in front of it. -/
theorem interpret_unknownCommand :
    (interpret quietHost "gpu_svm_demo" ["ninja", "run", "stop", "ninja"]).executed =
        [Segment.ninja.subprocess quietHost "gpu_svm_demo",
          Segment.run.subprocess quietHost "gpu_svm_demo"] ∧
      (interpret quietHost "gpu_svm_demo" ["ninja", "run", "stop", "ninja"]).exitStatus ≠ 0 := by
  obtain ⟨hexecuted, hstatus⟩ :=
    interpret_spec quietHost "gpu_svm_demo" ["ninja", "run", "stop", "ninja"] (by decide)
  have hsegments : segments ["ninja", "run", "stop", "ninja"] =
      [.ninja, .run, .other "stop", .ninja] := by
    simp [segments, Segment.ofArg]
  refine ⟨?_, ?_⟩
  · rw [hexecuted, commands, if_neg (by simp), hsegments]
    rfl
  · rw [ne_eq, hstatus, hsegments]
    exact fun h => h.1 (.other "stop") (by simp)

end GpuLibc.Helper
