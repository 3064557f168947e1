import Mathlib.Data.List.TakeWhile
import GpuLibc.Helper.Cli

/-!
# The hand-over of the build options

`build_application` appends an option only when it is set, whereas `build_llvm.sh` expects each one
at a position of its own: `--clean` as the first argument and `--run-cmake` as the second one. A
lone `--run-cmake` is not recognised.

## Main results

* `removal_mem_run`, `configure_mem_run_iff`, `not_mem_run`: when a run of the script removes the
  folders and when it configures;
* `optionsSurvive_iff`: exactly when a build that the program executes follows its flags.
-/

namespace GpuLibc.Helper

/-- What a run of `build_llvm.sh` depends on besides its arguments. -/
structure Shell where
  /-- `base_folder`. -/
  baseFolder : String
  /-- `PYTHON_EXEC`, which is empty when unset. -/
  pythonExec : String
  /-- The exit status of each command, numbered in the order of the run. -/
  status : ℕ → ℤ

/-- `build_type`. -/
def buildType : String := "Debug"

section Variables

variable (sh : Shell)

/-- `install_name`. -/
def installName : String := sh.baseFolder ++ "/llvm-installs/apptainer-" ++ buildType

/-- `source_name`. -/
def sourceName : String := sh.baseFolder ++ "/llvm-project/llvm"

/-- `build_name`. -/
def buildName : String := sh.baseFolder ++ "/llvm-builds/apptainer-" ++ buildType

end Variables

/-- `VALID_BUILD_TYPES`. -/
def validBuildTypes : List String := ["Debug", "Release", "RelWithDebInfo", "MinSizeRel"]

/-- `is_valid_build_type`. -/
def isValidBuildType (type : String) : Bool := validBuildTypes.any fun valid => type = valid

/-- The commands in front of the flags. -/
def preparation (sh : Shell) : List (List String) :=
  [["realpath", "./llvm-infra/"],
    ["dirname", sh.baseFolder],
    ["python", "-c", "import yaml; print('pyyaml is available!')"],
    ["mkdir", "-p", installName sh],
    ["mkdir", "-p", buildName sh]]

/-- The commands that remove the folders. -/
def removal (sh : Shell) : List (List String) :=
  [["rm", "-rf", buildName sh],
    ["rm", "-rf", installName sh]]

/-- The commands of the cleaning branch. -/
def cleaning (sh : Shell) : List (List String) := ["sleep", "5"] :: removal sh

/-- The CMake configuration. -/
def configure (sh : Shell) : List String :=
  ["cmake",
    "-S" ++ sourceName sh,
    "-B" ++ buildName sh,
    "-GNinja",
    "-DCMAKE_BUILD_TYPE=" ++ buildType,
    "-DPython3_EXECUTABLE=" ++ sh.pythonExec,
    "-DLLVM_ENABLE_PROJECTS=clang;lld;",
    "-DLLVM_ENABLE_RUNTIMES=openmp;offload",
    "-DCLANG_VENDOR=gpulibc-build",
    "-DLIBOMPTARGET_ENABLE_DEBUG=1",
    "-DLIBOMPTARGET_DLOPEN_PLUGINS=cuda",
    "-DRUNTIMES_nvptx64-nvidia-cuda_LLVM_ENABLE_RUNTIMES=libc",
    "-DRUNTIMES_amdgcn-amd-amdhsa_LLVM_ENABLE_RUNTIMES=libc",
    "-DLLVM_RUNTIME_TARGETS=default;amdgcn-amd-amdhsa;nvptx64-nvidia-cuda",
    "-DCMAKE_C_COMPILER=/usr/bin/clang",
    "-DCMAKE_CXX_COMPILER=/usr/bin/clang++",
    "-DLLVM_CCACHE_BUILD=ON",
    "-DCMAKE_INSTALL_PREFIX=" ++ installName sh]

/-- The commands behind the configuration. -/
def building (sh : Shell) : List (List String) :=
  [["cmake", "--build", buildName sh],
    ["cmake", "--install", buildName sh, "--prefix", installName sh]]

/-- `CLEAN`. -/
def cleanFlag (args : List String) : Prop := args.getD 0 "" = "--clean"

/-- `RUNCMAKE`. -/
def runCmakeFlag (args : List String) : Prop := args.getD 1 "" = "--run-cmake"

instance (args : List String) : Decidable (cleanFlag args) := inferInstanceAs (Decidable (_ = _))

instance (args : List String) : Decidable (runCmakeFlag args) :=
  inferInstanceAs (Decidable (_ = _))

/-- The commands of `build_llvm.sh` when none of them fails, without the messages of `echo`. -/
def buildLlvm (sh : Shell) (args : List String) : List (List String) :=
  preparation sh ++
    if isValidBuildType buildType then
      (if cleanFlag args then cleaning sh else []) ++
        (if runCmakeFlag args ∨ cleanFlag args then [configure sh] else []) ++ building sh
    -- `exit 1`
    else []

/-- The commands that a run of `build_llvm.sh` executes: `set -e` ends it with the first one that
fails. -/
def buildLlvmRun (sh : Shell) (args : List String) : List (List String) :=
  FailStop.run (fun i => sh.status i = 0) (buildLlvm sh args) 0

/-! ## What the script does with its arguments -/

variable {sh : Shell} {args : List String}

theorem buildLlvm_of_clean (hclean : cleanFlag args) :
    buildLlvm sh args = preparation sh ++ cleaning sh ++ configure sh :: building sh := by
  rw [buildLlvm, if_pos (by decide), if_pos hclean, if_pos (.inr hclean)]
  simp

theorem buildLlvm_of_not_clean (hclean : ¬ cleanFlag args) (hcmake : ¬ runCmakeFlag args) :
    buildLlvm sh args = preparation sh ++ building sh := by
  rw [buildLlvm, if_pos (by decide), if_neg hclean, if_neg (not_or.mpr ⟨hcmake, hclean⟩)]
  simp

/-- When the cleaning branch is taken, the configuration is reached if all commands in front of it
succeed. -/
theorem configure_mem_run_iff (hclean : cleanFlag args) :
    configure sh ∈ buildLlvmRun sh args ↔
      ∀ j < (preparation sh ++ cleaning sh).length, sh.status j = 0 := by
  -- the command has arguments that no command in front of it has, so it occurs only once
  have hnot : configure sh ∉ preparation sh ++ cleaning sh := by
    simp [configure, preparation, cleaning, removal]
  rw [buildLlvmRun, buildLlvm_of_clean hclean, FailStop.mem_run_append_cons_iff hnot]
  simp only [Nat.zero_add]

/-- The folders have then been removed. -/
theorem removal_mem_run (hclean : cleanFlag args)
    (hstatus : ∀ j < (preparation sh ++ cleaning sh).length, sh.status j = 0)
    {command : List String} (hmem : command ∈ removal sh) : command ∈ buildLlvmRun sh args := by
  have hall : ∀ j < (preparation sh ++ cleaning sh).length, sh.status (0 + j) = 0 := by
    simpa only [Nat.zero_add] using hstatus
  rw [buildLlvmRun, buildLlvm_of_clean hclean, FailStop.run_append, if_pos hall]
  -- the cleaning is the second part of what has been carried out
  apply List.mem_append_left
  apply List.mem_append_right
  exact List.mem_cons_of_mem _ hmem

/-- Without a recognised option the script neither removes the folders nor configures. -/
theorem not_mem_run {command : List String} (hclean : ¬ cleanFlag args)
    (hcmake : ¬ runCmakeFlag args) (hmem : command ∈ configure sh :: removal sh) :
    command ∉ buildLlvmRun sh args := by
  intro hrun
  have hplan := FailStop.mem_of_mem_run hrun
  rw [buildLlvm_of_not_clean hclean hcmake] at hplan
  simp only [removal, List.mem_cons, List.not_mem_nil, or_false] at hmem
  obtain rfl | rfl | rfl := hmem <;> simp [configure, preparation, building] at hplan

/-! ## What the program hands over -/

/-- What `build_application` passes to the script. -/
def scriptArgs (clean runCmake : Bool) : List String :=
  (if clean then ["--clean"] else []) ++ if runCmake then ["--run-cmake"] else []

theorem cleanFlag_scriptArgs_iff (clean runCmake : Bool) :
    cleanFlag (scriptArgs clean runCmake) ↔ clean = true := by
  cases clean <;> cases runCmake <;> decide

/-- The second argument is only passed behind the first one. -/
theorem runCmakeFlag_scriptArgs_iff (clean runCmake : Bool) :
    runCmakeFlag (scriptArgs clean runCmake) ↔ clean = true ∧ runCmake = true := by
  cases clean <;> cases runCmake <;> decide

/-- The subprocess is a run of `build_llvm.sh` that removes the two folders exactly if `--clean` is
among the flags and configures exactly if `--clean` or `--run-cmake` is. -/
def OptionsSurvive (h : Host) (sh : Shell) (flags : List String) (c : Subprocess) : Prop :=
  ∃ args, c.commandList = (buildScriptPath h).str :: args ∧
    (∀ command ∈ removal sh, command ∈ buildLlvmRun sh args ↔ "--clean" ∈ flags) ∧
    (configure sh ∈ buildLlvmRun sh args ↔ "--clean" ∈ flags ∨ "--run-cmake" ∈ flags)

/-- With the two options of a build. -/
theorem optionsSurvive_buildCommand_iff (h : Host) (sh : Shell) (flags : List String) :
    OptionsSurvive h sh flags (buildCommand h ("--clean" ∈ flags) ("--run-cmake" ∈ flags)) ↔
      ("--clean" ∈ flags ∧ ∀ j < (preparation sh ++ cleaning sh).length, sh.status j = 0) ∨
        ("--clean" ∉ flags ∧ "--run-cmake" ∉ flags) := by
  let args := scriptArgs ("--clean" ∈ flags) ("--run-cmake" ∈ flags)
  by_cases hclean : "--clean" ∈ flags
  · -- `--clean` is passed first, and the configuration follows the cleaning in any case
    have hflag : cleanFlag args := (cleanFlag_scriptArgs_iff _ _).mpr (by simpa using hclean)
    constructor
    · rintro ⟨args', hargs, -, hconfigure⟩
      cases List.cons_inj_right _ |>.mp hargs
      exact .inl ⟨hclean, (configure_mem_run_iff hflag).mp (hconfigure.mpr (.inl hclean))⟩
    · intro hcases
      obtain ⟨-, hstatus⟩ := hcases.resolve_right fun hnone => hnone.1 hclean
      refine ⟨args, rfl, fun command hmem => ?_, ?_⟩
      · exact iff_of_true (removal_mem_run hflag hstatus hmem) hclean
      · exact iff_of_true ((configure_mem_run_iff hflag).mpr hstatus) (.inl hclean)
  · -- the script sees no option, whether or not `--run-cmake` is passed
    have hflag : ¬ cleanFlag args := fun hflag =>
      hclean (by simpa using (cleanFlag_scriptArgs_iff _ _).mp hflag)
    have hcmake : ¬ runCmakeFlag args := fun hcmake =>
      hclean (by simpa using ((runCmakeFlag_scriptArgs_iff _ _).mp hcmake).1)
    constructor
    · rintro ⟨args', hargs, -, hconfigure⟩
      cases List.cons_inj_right _ |>.mp hargs
      refine .inr ⟨hclean, fun hflags => ?_⟩
      exact not_mem_run hflag hcmake List.mem_cons_self (hconfigure.mpr (.inr hflags))
    · intro hcases
      obtain ⟨-, hnone⟩ := hcases.resolve_left fun hsome => hclean hsome.1
      refine ⟨args, rfl, fun command hmem => ?_, ?_⟩
      · exact iff_of_false (not_mem_run hflag hcmake (List.mem_cons_of_mem _ hmem)) hclean
      · exact iff_of_false (not_mem_run hflag hcmake List.mem_cons_self)
          (not_or.mpr ⟨hclean, hnone⟩)

/-- When all segments are well formed, each subprocess is the one of the segment at its
position. -/
theorem executed_eq_subprocess {h : Host} {applicationFolder : String} {args : List String}
    (hfolder : applicationFolder ≠ "build-llvm") (hwell : ∀ seg ∈ segments args, seg.WellFormed)
    {i : ℕ} {seg : Segment} {c : Subprocess} (hseg : (segments args)[i]? = some seg)
    (hc : (interpret h applicationFolder args).executed[i]? = some c) :
    c = seg.subprocess h applicationFolder := by
  have hargs : args ≠ [] := by
    rintro rfl
    simp [segments] at hseg
  -- with well-formed segments only, the plan is cut off nowhere
  have hplan : commands h applicationFolder args =
      (segments args).map (Segment.subprocess h applicationFolder) := by
    have htake : ((segments args).takeWhile fun seg => seg.WellFormed) = segments args :=
      List.takeWhile_eq_self_iff.mpr (by simpa using hwell)
    rw [commands, if_neg hargs, plan, htake]
  have hexecuted : (interpret h applicationFolder args).executed =
      FailStop.run (fun i => h.returncode i = 0) (commands h applicationFolder args) 0 :=
    (cli_carriesOut args hfolder).outcome.1
  rw [hexecuted, hplan, FailStop.getElem?_run_eq_some_iff, List.getElem?_map, hseg] at hc
  exact (Option.some.inj hc.1).symm

/-- In every run of the program on arguments that it accepts, whatever the subprocesses and the
commands of the script return, an executed build follows its flags if and only if `--clean` is among
them and the commands of the script in front of the configuration succeed, or neither `--clean` nor
`--run-cmake` is. -/
theorem optionsSurvive_iff (h : Host) (sh : Shell) (applicationFolder : String)
    (args : List String) (hfolder : applicationFolder ≠ "build-llvm")
    (hwell : ∀ seg ∈ segments args, seg.WellFormed) (i : ℕ) (flags : List String) (c : Subprocess)
    (hseg : (segments args)[i]? = some (.build flags))
    (hc : (interpret h applicationFolder args).executed[i]? = some c) :
    OptionsSurvive h sh flags c ↔
      ("--clean" ∈ flags ∧ ∀ j < (preparation sh ++ cleaning sh).length, sh.status j = 0) ∨
        ("--clean" ∉ flags ∧ "--run-cmake" ∉ flags) := by
  rw [executed_eq_subprocess hfolder hwell hseg hc, Segment.subprocess_build]
  exact optionsSurvive_buildCommand_iff h sh flags

/-- A shell in which every command succeeds. -/
def quietShell : Shell where
  baseFolder := "/repo/llvm-infra"
  pythonExec := ""
  status _ := 0

theorem segments_build_run (flag : String) (hflag : isFlag flag = true) :
    segments ["build", flag, "run"] = [.build [flag], .run] := by
  have hrun : isFlag "run" = false := by decide
  simp [segments, Segment.ofArg, hflag, hrun]

/-- The build of `quietHost` with one flag is its first subprocess. -/
theorem executed_build_run (flag : String) (hflag : isFlag flag = true) (hknown : KnownFlag flag) :
    (interpret quietHost "gpu_svm_demo" ["build", flag, "run"]).executed[0]? =
      some (buildCommand quietHost ("--clean" ∈ [flag]) ("--run-cmake" ∈ [flag])) := by
  have hexecuted : (interpret quietHost "gpu_svm_demo" ["build", flag, "run"]).executed = _ :=
    (cli_carriesOut _ (by decide)).outcome.1
  have hwell : (Segment.build [flag]).WellFormed := by simpa [Segment.WellFormed] using hknown
  rw [hexecuted, FailStop.getElem?_run_eq_some_iff, commands, if_neg (by simp),
    segments_build_run flag hflag, plan_cons_of_wellFormed hwell, Segment.subprocess_build]
  exact ⟨rfl, fun j hj => absurd hj (Nat.not_lt_zero j)⟩

/-- A build with `--clean` follows its flags. -/
theorem optionsSurvive_clean :
    ∃ c, (interpret quietHost "gpu_svm_demo" ["build", "--clean", "run"]).executed[0]? = some c ∧
      OptionsSurvive quietHost quietShell ["--clean"] c := by
  have hsegments := segments_build_run "--clean" (by decide)
  refine ⟨_, executed_build_run "--clean" (by decide) (by decide), ?_⟩
  refine (optionsSurvive_iff quietHost quietShell "gpu_svm_demo" ["build", "--clean", "run"]
    (by decide) ?_ 0 ["--clean"] _ ?_ (executed_build_run "--clean" (by decide) (by decide))).mpr
    (.inl ⟨by decide, fun _ _ => rfl⟩)
  · rw [hsegments]
    decide
  · rw [hsegments]
    rfl

/-- A build with `--run-cmake` alone does not configure, even if all commands succeed. -/
theorem not_optionsSurvive : ¬ ∀ (h : Host) (sh : Shell) (applicationFolder : String)
    (args : List String), applicationFolder ≠ "build-llvm" → (∀ j, sh.status j = 0) →
    (∀ seg ∈ segments args, seg.WellFormed) →
    ∀ (i : ℕ) (flags : List String) (c : Subprocess), (segments args)[i]? = some (.build flags) →
      (interpret h applicationFolder args).executed[i]? = some c → OptionsSurvive h sh flags c := by
  intro hall
  have hsegments := segments_build_run "--run-cmake" (by decide)
  have hsurvives := hall quietHost quietShell "gpu_svm_demo" ["build", "--run-cmake", "run"]
    (by decide) (fun _ => rfl) (by rw [hsegments]; decide) 0 ["--run-cmake"] _
    (by rw [hsegments]; rfl) (executed_build_run "--run-cmake" (by decide) (by decide))
  -- neither case of the condition applies
  have hcases := (optionsSurvive_buildCommand_iff _ _ _).mp hsurvives
  simp at hcases

end GpuLibc.Helper
