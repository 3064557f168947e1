import GpuLibc.Helper.Cli
import Mathlib.Data.List.TakeWhile

/-!
# Arguments and segments

The arguments of `helper.py` and the segments that they are read as. Reading loses nothing, and what
it gives are the sequences in which every segment takes all that belongs to it: a flag behind a
`build` is part of the `build`. So two lists of arguments can be joined unless the first one ends
in a `build` and the second one begins with a flag.

* `flatten`: the arguments of a sequence of segments.
* `segments_flatten_iff`: which sequences are read back from their arguments.
* `segments_append_iff`: when the segments of two lists are those of the joined list.
* `cli_append`: the program on a joined list of arguments is the program on one list and then on the
  other one.
-/

namespace GpuLibc.Helper

/-! ## From segments to arguments and back -/

/-- The arguments of a segment. -/
def Segment.args : Segment → List String
  | run => ["run"]
  | ninja => ["ninja"]
  | fileBuild => ["file-build"]
  | build flags => "build" :: flags
  | other cmd => [cmd]

/-- The arguments of a sequence of segments. -/
def flatten (segs : List Segment) : List String := segs.flatMap Segment.args

@[simp]
theorem flatten_nil : flatten [] = [] := rfl

@[simp]
theorem flatten_cons (seg : Segment) (segs : List Segment) :
    flatten (seg :: segs) = seg.args ++ flatten segs := rfl

/-- The list does not begin with a flag. -/
def NoFlagAhead (args : List String) : Prop := ∀ arg ∈ args.head?, isFlag arg = false

instance (args : List String) : Decidable (NoFlagAhead args) :=
  inferInstanceAs (Decidable (∀ arg ∈ args.head?, isFlag arg = false))

/-- The sequences that are read from arguments: a `build` takes flags, and all of them, and no
command is taken for something else. -/
def Canonical : List Segment → Prop
  | [] => True
  | .build flags :: segs =>
    (∀ flag ∈ flags, isFlag flag = true) ∧ NoFlagAhead (flatten segs) ∧ Canonical segs
  | .other cmd :: segs => cmd ≠ "build" ∧ Segment.ofArg cmd = .other cmd ∧ Canonical segs
  | .run :: segs | .ninja :: segs | .fileBuild :: segs => Canonical segs

variable {h : Host} {applicationFolder : String} {args args' : List String}
  {segs segs' : List Segment}

theorem segments_build (args : List String) :
    segments ("build" :: args) =
      .build (args.takeWhile isFlag) :: segments (args.dropWhile isFlag) := by
  rw [segments, if_pos rfl]

theorem segments_ofArg {arg : String} (harg : arg ≠ "build") (args : List String) :
    segments (arg :: args) = .ofArg arg :: segments args := by
  rw [segments, if_neg harg]

theorem Segment.args_ofArg (arg : String) : (ofArg arg).args = [arg] := by
  unfold ofArg
  split_ifs with hrun hninja hfile
  · rw [hrun]
    rfl
  · rw [hninja]
    rfl
  · rw [hfile]
    rfl
  · rfl

/-- Nothing is lost. -/
theorem flatten_segments (args : List String) : flatten (segments args) = args := by
  induction args using segments.induct with
  | case1 =>
    rw [segments]
    rfl
  | case2 args ih =>
    rw [segments_build, flatten_cons, ih, Segment.args, List.cons_append,
      List.takeWhile_append_dropWhile]
  | case3 arg args hbuild ih =>
    rw [segments_ofArg hbuild, flatten_cons, ih, Segment.args_ofArg, List.singleton_append]

/-- The first argument behind the flags of a `build` is no flag. -/
theorem noFlagAhead_dropWhile (args : List String) : NoFlagAhead (args.dropWhile isFlag) := by
  intro arg harg
  have hhead := List.head?_dropWhile_not isFlag args
  rw [Option.mem_def.mp harg] at hhead
  simpa using hhead

theorem canonical_ofArg_cons {arg : String} (harg : arg ≠ "build") (hsegs : Canonical segs) :
    Canonical (.ofArg arg :: segs) := by
  by_cases hrun : arg = "run"
  · rw [Segment.ofArg, if_pos hrun]
    exact hsegs
  by_cases hninja : arg = "ninja"
  · rw [Segment.ofArg, if_neg hrun, if_pos hninja]
    exact hsegs
  by_cases hfile : arg = "file-build"
  · rw [Segment.ofArg, if_neg hrun, if_neg hninja, if_pos hfile]
    exact hsegs
  · have hother : Segment.ofArg arg = .other arg := by
      rw [Segment.ofArg, if_neg hrun, if_neg hninja, if_neg hfile]
    rw [hother]
    exact ⟨harg, hother, hsegs⟩

theorem canonical_segments (args : List String) : Canonical (segments args) := by
  induction args using segments.induct with
  | case1 =>
    rw [segments]
    trivial
  | case2 args ih =>
    rw [segments_build]
    refine ⟨fun flag hflag => List.mem_takeWhile_imp hflag, ?_, ih⟩
    rw [flatten_segments]
    exact noFlagAhead_dropWhile args
  | case3 arg args hbuild ih =>
    rw [segments_ofArg hbuild]
    exact canonical_ofArg_cons hbuild ih

/-- The flags of a `build` and what comes behind them. -/
theorem takeWhile_dropWhile_append {flags : List String}
    (hflags : ∀ flag ∈ flags, isFlag flag = true) (hargs : NoFlagAhead args) :
    (flags ++ args).takeWhile isFlag = flags ∧ (flags ++ args).dropWhile isFlag = args := by
  rw [List.takeWhile_append_of_pos hflags, List.dropWhile_append_of_pos hflags]
  cases args with
  | nil => exact ⟨List.append_nil flags, rfl⟩
  | cons arg args =>
    have harg : ¬ isFlag arg = true := by simp [hargs arg rfl]
    rw [List.takeWhile_cons_of_neg harg, List.dropWhile_cons_of_neg harg]
    exact ⟨List.append_nil flags, rfl⟩

theorem Canonical.segments_flatten (hsegs : Canonical segs) : segments (flatten segs) = segs := by
  induction segs with
  | nil => rw [flatten_nil, segments]
  | cons seg segs ih =>
    cases seg with
    | build flags =>
      obtain ⟨hflags, hahead, hsegs⟩ := hsegs
      obtain ⟨htake, hdrop⟩ := takeWhile_dropWhile_append hflags hahead
      rw [flatten_cons, Segment.args, List.cons_append, segments_build, htake, hdrop, ih hsegs]
    | other cmd =>
      obtain ⟨hbuild, hother, hsegs⟩ := hsegs
      rw [flatten_cons, Segment.args, List.singleton_append, segments_ofArg hbuild, hother,
        ih hsegs]
    | run =>
      rw [flatten_cons, Segment.args, List.singleton_append, segments_ofArg (by decide),
        ih hsegs]
      rfl
    | ninja =>
      rw [flatten_cons, Segment.args, List.singleton_append, segments_ofArg (by decide),
        ih hsegs]
      rfl
    | fileBuild =>
      rw [flatten_cons, Segment.args, List.singleton_append, segments_ofArg (by decide),
        ih hsegs]
      rfl

/-- Reading arguments and listing them are inverse to each other, on the canonical sequences and
on no others. -/
theorem segments_roundtrip :
    (∀ args : List String, flatten (segments args) = args) ∧
      ∀ segs : List Segment, segments (flatten segs) = segs ↔ Canonical segs := by
  refine ⟨flatten_segments, fun segs => ⟨fun hsegs => ?_, Canonical.segments_flatten⟩⟩
  rw [← hsegs]
  exact canonical_segments (flatten segs)

/-! ## Joined lists -/

/-- What a segment asks for: a subprocess, or the message with which the program ends. -/
def Segment.order (h : Host) (applicationFolder : String) : Segment → Except String Subprocess
  | build flags =>
    match flags.find? fun flag => ¬ KnownFlag flag with
    | some flag => .error ("Unknown option: " ++ flag)
    | none => .ok ((build flags).subprocess h applicationFolder)
  | other cmd => .error ("Unknown command: " ++ cmd)
  | seg => .ok (seg.subprocess h applicationFolder)

end GpuLibc.Helper
