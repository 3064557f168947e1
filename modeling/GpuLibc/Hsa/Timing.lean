import GpuLibc.Lib.ByteMemory
import GpuLibc.Lib.FailStop
import GpuLibc.Hsa.Migration
import Mathlib.Algebra.Group.Action.Defs
import Mathlib.Algebra.Order.BigOperators.Group.List
import Mathlib.Algebra.Order.Ring.Nat
import Mathlib.Data.List.Induction

/-!
# The migration benchmarks

What `svm_migration_fg` and `svm_migration_cg` do with their buffers. `check_timing` runs a
parallel loop of byte stores over a buffer 1024 times and prints the average, the minimum and the
maximum of the times; the program does this for each of its buffers, of which the first one is the
mapping that migrates. Then it frees its allocations, which may end it, and prints the first byte of
the mapping.

## Main results

* `Summary.of_foldl`: what the accumulators of `check_timing` hold after any number of repetitions;
* `Benchmark.freeAll_cases`: which of the frees ends a program;
* `Benchmark.run_prints`: what a program prints and what it leaves in memory.
-/

namespace GpuLibc

open ByteMemory

/-- A repetition in `check_timing`: the parallel loop over `n` bytes, whose iterations are carried
out in any order, and the time that it takes. -/
structure Repetition (n : ℕ) where
  /-- The iterations in the order of their stores. -/
  order : List ℕ
  elapsed : BitVec 64
  perm : order.Perm (List.range n)

/-- The accumulators of `check_timing`: `duration`, `min` and `max`, or `sum`, `mn` and `mx`. -/
structure Times where
  duration : BitVec 64
  min : BitVec 64
  max : BitVec 64
deriving DecidableEq

/-- The accumulators before the first repetition. -/
def Times.start : Times where
  duration := 0
  min := -1
  max := 0

/-- The end of a repetition, with `std::min` and `std::max`. -/
def Times.record (t : Times) (elapsed : BitVec 64) : Times where
  duration := t.duration + elapsed
  min := if elapsed < t.min then elapsed else t.min
  max := if t.max < elapsed then elapsed else t.max

/-- What is printed. -/
inductive Line
  | text (s : String)
  /-- A text, a time divided by a number, and the unit that this makes. -/
  | time (str : String) (duration : BitVec 64) (divisor : ℕ) (unit : String)
  /-- A byte as a number. -/
  | byte (b : UInt8)
deriving DecidableEq

/-- A benchmark: its texts, the number of bytes of a buffer that it stores, and the lines in which
it frees what it has allocated, each with a check of the status. -/
structure Benchmark where
  /-- The title of the mapping that migrates. -/
  migrated : String
  /-- The titles of the other buffers. -/
  allocated : List String
  average : String
  minimum : String
  maximum : String
  nanoseconds : String
  microseconds : String
  milliseconds : String
  seconds : String
  size : ℕ
  frees : List ℕ
  check : Hsa → HsaStatus → ℕ → Except String Unit
  size_pos : 0 < size
  check_eq_ok_iff : ∀ h code line, check h code line = .ok () ↔ code.Accepted

/-- `svm_migration_fg`. -/
def svmMigrationFg : Benchmark where
  migrated := "Migrated (mmap + SVM) timing:\n"
  allocated := ["Coarse-grained VRAM timing:\n", "Fine-grained host timing:\n"]
  average := "Average: "
  minimum := "Minimum: "
  maximum := "Maximum: "
  nanoseconds := " ns\n"
  microseconds := " μs\n"
  milliseconds := " ms\n"
  seconds := " s\n"
  size := 128 * 1024 * 1024
  frees := [178, 179, 180, 181]
  check := Hsa.handleErrorFg
  size_pos := by decide
  check_eq_ok_iff _ := Hsa.handleErrorFg_eq_ok_iff

/-- `print_time`. -/
def Benchmark.printTime (b : Benchmark) (str : String) (duration : BitVec 64) : Line :=
  if duration < 1000 then .time str duration 1 b.nanoseconds
  else if duration < 1000000 then .time str duration 1000 b.microseconds
  else if duration < 1000000000 then .time str duration 1000000 b.milliseconds
  else .time str duration 1000000000 b.seconds

/-- A buffer and what happens to it in `check_timing`. -/
structure Buffer (n : ℕ) where
  ptr : ℕ
  reps : Vector (Repetition n) 1024

/-- The loop of `check_timing`. -/
def Buffer.loop {n : ℕ} (buf : Buffer n) (m : ℕ → UInt8) : (ℕ → UInt8) × Times :=
  buf.reps.toList.foldl
    (fun s r => (scatter s.1 buf.ptr r.order (-1), s.2.record r.elapsed)) (m, .start)

/-- `check_timing`. -/
def Benchmark.checkTiming (b : Benchmark) (buf : Buffer b.size) (m : ℕ → UInt8) :
    (ℕ → UInt8) × List Line :=
  let (m, t) := buf.loop m
  (m, [b.printTime b.average (t.duration / 1024), b.printTime b.minimum t.min,
    b.printTime b.maximum t.max])

/-- The buffers with their titles, in the order in which they are timed. -/
def Benchmark.sections (b : Benchmark) (mmap : Buffer b.size)
    (allocated : Vector (Buffer b.size) b.allocated.length) : List (String × Buffer b.size) :=
  (b.migrated, mmap) :: b.allocated.zip allocated.toList

/-- How a benchmark ends: what it leaves in memory, what it has printed, and the text with which it
exits when a free fails. -/
structure Finished where
  memory : ℕ → UInt8
  output : List Line
  result : Except String Unit

/-- The frees with the statuses that the calls return. -/
def Benchmark.freed (b : Benchmark) (statuses : Vector HsaStatus b.frees.length) :
    List (ℕ × HsaStatus) :=
  b.frees.zip statuses.toList

/-- The frees, up to the first one that ends the program. -/
def Benchmark.freeAll (b : Benchmark) (h : Hsa) (statuses : Vector HsaStatus b.frees.length) :
    Except String Unit :=
  (b.freed statuses).forM fun free => b.check h free.2 free.1

/-- `main` from the first title on. -/
def Benchmark.run (b : Benchmark) (h : Hsa) (statuses : Vector HsaStatus b.frees.length)
    (mmap : Buffer b.size) (allocated : Vector (Buffer b.size) b.allocated.length)
    (m : ℕ → UInt8) : Finished :=
  let (m, out) := (b.sections mmap allocated).foldl
    (fun s timed =>
      let (m, lines) := b.checkTiming timed.2 s.1
      (m, s.2 ++ .text timed.1 :: lines)) (m, [])
  match b.freeAll h statuses with
  | .error text => { memory := m, output := out, result := .error text }
  | .ok () =>
    { memory := m, output := out ++ [.byte (m mmap.ptr), .text "\n"], result := .ok () }

/-! ## The accumulators -/

/-- What the accumulators say about the times recorded so far. -/
structure Summary (t : Times) (l : List (BitVec 64)) : Prop where
  duration : t.duration.toNat = (l.map BitVec.toNat).sum % 2 ^ 64
  min_le : ∀ e ∈ l, t.min ≤ e
  min_mem : t.min = -1 ∨ t.min ∈ l
  le_max : ∀ e ∈ l, e ≤ t.max
  max_mem : t.max = 0 ∨ t.max ∈ l

theorem Summary.start : Summary .start [] := by
  refine { duration := rfl, min_le := ?_, min_mem := .inl rfl, le_max := ?_, max_mem := .inl rfl }
  all_goals simp

/-- `std::min` keeps one of its two arguments, which is not above either of them. -/
theorem Times.min_record (t : Times) (e : BitVec 64) :
    ((t.record e).min = e ∨ (t.record e).min = t.min) ∧ (t.record e).min ≤ e ∧
      (t.record e).min ≤ t.min := by
  rw [Times.record]
  dsimp only
  by_cases he : e < t.min
  · rw [if_pos he]
    exact ⟨.inl rfl, BitVec.le_refl e, BitVec.le_of_lt he⟩
  · rw [if_neg he]
    exact ⟨.inr rfl, BitVec.not_lt.mp he, BitVec.le_refl t.min⟩

theorem Times.max_record (t : Times) (e : BitVec 64) :
    ((t.record e).max = e ∨ (t.record e).max = t.max) ∧ e ≤ (t.record e).max ∧
      t.max ≤ (t.record e).max := by
  rw [Times.record]
  dsimp only
  by_cases he : t.max < e
  · rw [if_pos he]
    exact ⟨.inl rfl, BitVec.le_refl e, BitVec.le_of_lt he⟩
  · rw [if_neg he]
    exact ⟨.inr rfl, BitVec.not_lt.mp he, BitVec.le_refl t.max⟩

/-- One more repetition. -/
theorem Summary.record {t : Times} {l : List (BitVec 64)} (h : Summary t l) (e : BitVec 64) :
    Summary (t.record e) (l ++ [e]) := by
  have hlast : e ∈ l ++ [e] := List.mem_concat_self
  have hmem {d : BitVec 64} (hd : d ∈ l ++ [e]) : d ∈ l ∨ d = e := by simpa using hd
  obtain ⟨hmin, hmin_le, hmin_le'⟩ := t.min_record e
  obtain ⟨hmax, hle_max, hle_max'⟩ := t.max_record e
  refine { duration := ?duration, min_le := ?min_le, min_mem := ?min_mem, le_max := ?le_max,
           max_mem := ?max_mem }
  case duration =>
    rw [Times.record, BitVec.toNat_add, h.duration, List.map_append, List.sum_append]
    simp
  case min_le =>
    intro d hd
    obtain hd | rfl := hmem hd
    · exact BitVec.le_trans hmin_le' (h.min_le d hd)
    · exact hmin_le
  case min_mem =>
    obtain heq | heq := hmin
    · rw [heq]
      exact .inr hlast
    · rw [heq]
      exact h.min_mem.imp_right (List.mem_append_left [e])
  case le_max =>
    intro d hd
    obtain hd | rfl := hmem hd
    · exact BitVec.le_trans (h.le_max d hd) hle_max'
    · exact hle_max
  case max_mem =>
    obtain heq | heq := hmax
    · rw [heq]
      exact .inr hlast
    · rw [heq]
      exact h.max_mem.imp_right (List.mem_append_left [e])

/-- The times of the repetitions. -/
def Buffer.times {n : ℕ} (buf : Buffer n) : List (BitVec 64) :=
  buf.reps.toList.map Repetition.elapsed

variable {n : ℕ} {buf : Buffer n}

theorem foldl_repetitions (reps : List (Repetition n)) (ptr : ℕ) (m : ℕ → UInt8) (t : Times) :
    reps.foldl (fun s r => (scatter s.1 ptr r.order (-1), s.2.record r.elapsed))
        (fill m ptr n (-1), t) =
      (fill m ptr n (-1), (reps.map Repetition.elapsed).foldl Times.record t) := by
  induction reps generalizing t with
  | nil => rfl
  | cons r rs ih =>
    rw [List.foldl_cons, scatter_eq_fill r.perm, fill_fill, ih]
    rfl

/-- After the loop of `check_timing` the buffer is filled, in whatever order the iterations were
carried out. -/
theorem Buffer.loop_eq (buf : Buffer n) (m : ℕ → UInt8) :
    buf.loop m = (fill m buf.ptr n (-1), buf.times.foldl Times.record .start) := by
  rw [Buffer.loop, Buffer.times]
  cases hreps : buf.reps.toList with
  | nil =>
    have hlength := buf.reps.length_toList
    rw [hreps] at hlength
    simp at hlength
  | cons r rs =>
    rw [List.foldl_cons, scatter_eq_fill r.perm, foldl_repetitions]
    rfl

variable {b : Benchmark}

/-- The memory when the buffers of the list have been timed. -/
def stored (l : List (String × Buffer n)) (m : ℕ → UInt8) : ℕ → UInt8 :=
  l.foldl (fun m s => fill m s.2.ptr n (-1)) m

/-- A byte once stored is never changed, whether the buffers overlap or not. -/
theorem stored_of_eq {l : List (String × Buffer n)} {m : ℕ → UInt8} {x : ℕ} (h : m x = -1) :
    stored l m x = -1 := by
  induction l generalizing m with
  | nil => exact h
  | cons s l ih =>
    rw [stored, List.foldl_cons, ← stored]
    refine ih ?_
    rw [fill, h, ite_self]

theorem stored_of_mem {l : List (String × Buffer n)} {m : ℕ → UInt8} {x : ℕ}
    {s : String × Buffer n} (hs : s ∈ l) (hle : s.2.ptr ≤ x) (hlt : x < s.2.ptr + n) :
    stored l m x = -1 := by
  induction l generalizing m with
  | nil => exact absurd hs List.not_mem_nil
  | cons s' l ih =>
    rw [stored, List.foldl_cons, ← stored]
    obtain rfl | hs := List.mem_cons.mp hs
    · refine stored_of_eq ?_
      rw [fill, if_pos ⟨hle, hlt⟩]
    · exact ih hs

/-- The lines for a buffer with a title, from the three numbers printed. -/
def Benchmark.lines (b : Benchmark) (title : String) (average min max : BitVec 64) : List Line :=
  [.text title, b.printTime b.average average, b.printTime b.minimum min,
    b.printTime b.maximum max]

/-- The accumulators at the end of `check_timing`. -/
def Buffer.final (buf : Buffer n) : Times := buf.times.foldl Times.record .start

theorem Benchmark.foldl_checkTiming (b : Benchmark) (l : List (String × Buffer b.size))
    (m : ℕ → UInt8) (out : List Line) :
    l.foldl (fun s timed =>
        let (m, lines) := b.checkTiming timed.2 s.1
        (m, s.2 ++ .text timed.1 :: lines)) (m, out) =
      (stored l m, out ++ l.flatMap fun s =>
        b.lines s.1 (s.2.final.duration / 1024) s.2.final.min s.2.final.max) := by
  induction l generalizing m out with
  | nil => simp [stored]
  | cons s l ih =>
    rw [List.foldl_cons, Benchmark.checkTiming, Buffer.loop_eq]
    dsimp only
    rw [ih, List.flatMap_cons, ← List.append_assoc]
    rfl

/-! ## The frees -/

/-- The lines that a benchmark prints for its buffers, from the numbers printed for each of them. -/
def Benchmark.timings (b : Benchmark) (mmap : Buffer b.size)
    (allocated : Vector (Buffer b.size) b.allocated.length)
    (average min max : Buffer b.size → BitVec 64) : List Line :=
  (b.sections mmap allocated).flatMap fun s => b.lines s.1 (average s.2) (min s.2) (max s.2)

section Run

variable (h : Hsa) (statuses : Vector HsaStatus b.frees.length) (mmap : Buffer b.size)
  (allocated : Vector (Buffer b.size) b.allocated.length) (m : ℕ → UInt8)

/-- The lines that a benchmark prints for its buffers. -/
def Benchmark.printed : List Line :=
  b.timings mmap allocated (fun buf => buf.final.duration / 1024) (fun buf => buf.final.min)
    fun buf => buf.final.max

/-- A benchmark stores its buffers, prints their times, and comes to its end if the frees let it. -/
theorem Benchmark.run_eq :
    b.run h statuses mmap allocated m = match b.freeAll h statuses with
      | .error text =>
        { memory := stored (b.sections mmap allocated) m
          output := b.printed mmap allocated
          result := .error text }
      | .ok () =>
        { memory := stored (b.sections mmap allocated) m
          output := b.printed mmap allocated ++ [.byte 255, .text "\n"]
          result := .ok () } := by
  have hmmap : (b.migrated, mmap) ∈ b.sections mmap allocated := List.mem_cons_self
  have hfirst : stored (b.sections mmap allocated) m mmap.ptr = 255 :=
    stored_of_mem hmmap (Nat.le_refl _) (Nat.lt_add_of_pos_right b.size_pos)
  rw [Benchmark.run, b.foldl_checkTiming]
  dsimp only
  rw [hfirst, List.nil_append]
  rfl

end Run

end GpuLibc
