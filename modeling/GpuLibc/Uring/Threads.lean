import GpuLibc.Uring.FewCalls
import Mathlib.Data.List.Nodup
import Mathlib.Data.List.Perm.Basic

/-!
# Greetings from threads

The program of `io_uring_cpu_mt` that starts threads: `main` creates a waker thread and
`NUM_THREADS` threads, each thread formats a greeting with the number it finds behind its argument,
frees the argument, sleeps and passes the greeting to `uring_perror`, and `main` joins them. The
threads run in an arbitrary order, interleaved with the kernel. The program is followed up to the
last join; the teardown behind it takes the message pool away, done or not.

* `Threads.step`: the program as a machine around callers and kernel.
* `Threads.Inv`: whose greeting each call carries.
* `greetings_delivered`: each thread's greeting is written once at most, and once exactly when the
  kernel is done after the join.
-/

namespace GpuLibc

open Machine

/-- `NUM_THREADS`. -/
def numThreads : ℕ := 10

/-- `sizeof(msg)` in `thread_func`. -/
def greetingSize : ℕ := 64

/-- What `snprintf(msg, sizeof(msg), "Thread %d says hello\n", id)` leaves before the terminator:
the characters that do not fit are cut off. -/
def greeting (id : ℕ) : List Byte :=
  (("Thread " ++ toString id ++ " says hello\n").toList.map fun c =>
    BitVec.ofNat 8 c.toNat).take (greetingSize - 1)

theorem length_greeting_lt (id : ℕ) : (greeting id).length < msgBufSize := by
  rw [greeting, List.length_take]
  exact (Nat.min_le_left _ _).trans_lt (by decide)

/-- The arguments `msg` and `strlen(msg)`. -/
def greetingMsg (id : ℕ) : Message := { bytes := greeting id, short := length_greeting_lt id }

/-! ## The program -/

/-- A thread between two steps of `thread_func`. -/
inductive Thread
  /-- It has been created, and will read and free its argument. -/
  | created
  /-- It sleeps before it passes its message on. -/
  | sleeping (msg : Message)
  /-- It is in `uring_perror` with the call of this index. -/
  | calling (k : ℕ)
  /-- It has returned from `thread_func`. -/
  | exited (k : ℕ)

/-- The call that a thread has made. -/
def Thread.call : Thread → Option ℕ
  | .created | .sleeping _ => none
  | .calling k | .exited k => some k

/-- Where `main` stands. -/
inductive MainPhase
  /-- Before `pthread_create` of the waker thread. -/
  | starting
  | creating
  /-- The first `n` threads have been joined. -/
  | joining (n : ℕ)
deriving DecidableEq

/-- The program in execution. -/
structure Threads where
  state : State
  /-- The memory behind `arg` of each thread created so far, `none` once it has been freed. -/
  args : List (Option ℕ)
  threads : List Thread
  main : MainPhase

/-- Who moves next. -/
inductive ThreadsLabel
  | main
  | thread (i : ℕ)
  /-- A step of the kernel or of the waker thread. -/
  | kernel (a : Label)

namespace Threads

/-- The next step of `main` up to the last join; `pthread_join` blocks until the thread has
exited. -/
def mainStep (x : Threads) : Option Threads :=
  match x.main with
  | .starting => some { x with main := .creating }
  | .creating =>
    if x.threads.length < numThreads then
      -- a block of its own for each thread, which finds its number there
      some { x with
        args := x.args ++ [some x.threads.length]
        threads := x.threads ++ [.created] }
    else some { x with main := .joining 0 }
  | .joining n =>
    match x.threads[n]? with
    | some (.exited _) => some { x with main := .joining (n + 1) }
    | _ => none

/-- The next step of a thread. -/
def threadStep (r : Ring) (x : Threads) (i : ℕ) : Option Threads :=
  match x.threads[i]? with
  | some .created =>
    -- reading the number behind the argument, formatting, and `free(arg)`
    match x.args[i]? with
    | some (some id) =>
      some { x with
        args := x.args.set i none
        threads := x.threads.set i (.sleeping (greetingMsg id)) }
    | _ => none
  | some (.sleeping msg) =>
    (x.state.step .ioUringCpuMt r (.claim msg)).map fun s =>
      { x with state := s, threads := x.threads.set i (.calling x.state.calls.length) }
  | some (.calling k) =>
    if x.state.calls[k]?.map Call.phase = some .returned then
      some { x with threads := x.threads.set i (.exited k) }
    else (x.state.step .ioUringCpuMt r (.call k)).map fun s => { x with state := s }
  | _ => none

/-- The steps that the kernel makes, and the waker thread once `main` has created it. -/
def kernelAllows (x : Threads) : Label → Prop
  | .claim _ | .call _ => False
  | .poller .enterWakeup => x.main ≠ .starting
  | .take | .write _ | .complete _ | .poller _ => True

instance (x : Threads) : ∀ a, Decidable (x.kernelAllows a)
  | .claim _ | .call _ => inferInstanceAs (Decidable False)
  | .poller .enterWakeup => inferInstanceAs (Decidable (x.main ≠ .starting))
  | .poller .needWakeup | .poller .recheck | .poller .sleep => inferInstanceAs (Decidable True)
  | .take | .write _ | .complete _ => inferInstanceAs (Decidable True)

/-- The step function of the program. -/
def step (r : Ring) (x : Threads) : ThreadsLabel → Option Threads
  | .main => x.mainStep
  | .thread i => x.threadStep r i
  | .kernel a =>
    if x.kernelAllows a then
      (x.state.step .ioUringCpuMt r a).map fun s => { x with state := s }
    else none

/-- The program as a machine; it starts after `setup_uring`. -/
def machine (r : Ring) : Machine Threads ThreadsLabel where
  init x := Initial x.state ∧ x.args = [] ∧ x.threads = [] ∧ x.main = .starting
  step := step r

/-- A thread stores the tail only when all calls with earlier tickets have stored it. -/
def inOrder (x : Threads) : ThreadsLabel → Prop
  | .thread i => ∀ k, x.threads[i]?.bind Thread.call = some k → publishesInOrder x.state (.call k)
  | .main | .kernel _ => True

instance (x : Threads) : ∀ a, Decidable (x.inOrder a)
  | .thread i =>
    match h : x.threads[i]?.bind Thread.call with
    | none => isTrue fun k hk => by rw [h] at hk; cases hk
    | some k => decidable_of_iff (publishesInOrder x.state (.call k)) <| by
        simp only [inOrder, h, Option.some.injEq, forall_eq']
  | .main | .kernel _ => inferInstanceAs (Decidable True)

/-! ## What one step does -/

variable {v : Variant} {r : Ring} {s s' : State} {x x' : Threads} {owners : List ℕ} {i k : ℕ}

theorem mainStep_cases (hs : x.mainStep = some x') :
    x.main = .starting ∧ x' = { x with main := .creating } ∨
    x.main = .creating ∧ x.threads.length < numThreads ∧
      x' = { x with
        args := x.args ++ [some x.threads.length]
        threads := x.threads ++ [.created] } ∨
    x.main = .creating ∧ numThreads ≤ x.threads.length ∧ x' = { x with main := .joining 0 } ∨
    ∃ n k, x.main = .joining n ∧ x.threads[n]? = some (.exited k) ∧
      x' = { x with main := .joining (n + 1) } := by
  rw [mainStep] at hs
  split at hs
  next hmain => exact .inl ⟨hmain, (Option.some.inj hs).symm⟩
  next hmain =>
    split at hs
    next hlt => exact .inr (.inl ⟨hmain, hlt, (Option.some.inj hs).symm⟩)
    next hge => exact .inr (.inr (.inl ⟨hmain, not_lt.mp hge, (Option.some.inj hs).symm⟩))
  next n hmain =>
    split at hs
    next k hk => exact .inr (.inr (.inr ⟨n, k, hmain, hk, (Option.some.inj hs).symm⟩))
    next => cases hs

theorem threadStep_cases (hs : x.threadStep r i = some x') :
    (∃ id, x.threads[i]? = some .created ∧ x.args[i]? = some (some id) ∧
      x' = { x with
        args := x.args.set i none
        threads := x.threads.set i (.sleeping (greetingMsg id)) }) ∨
    (∃ msg s', x.threads[i]? = some (.sleeping msg) ∧
      (system .ioUringCpuMt r).step x.state (.claim msg) = some s' ∧
      x' = { x with
        state := s'
        threads := x.threads.set i (.calling x.state.calls.length) }) ∨
    (∃ k, x.threads[i]? = some (.calling k) ∧
      x.state.calls[k]?.map Call.phase = some .returned ∧
      x' = { x with threads := x.threads.set i (.exited k) }) ∨
    ∃ k s', x.threads[i]? = some (.calling k) ∧
      x.state.calls[k]?.map Call.phase ≠ some .returned ∧
      (system .ioUringCpuMt r).step x.state (.call k) = some s' ∧ x' = { x with state := s' } := by
  rw [threadStep] at hs
  split at hs
  next hi =>
    split at hs
    next id hid => exact .inl ⟨id, hi, hid, (Option.some.inj hs).symm⟩
    next => cases hs
  next msg hi =>
    obtain ⟨s', hs', rfl⟩ := Option.map_eq_some_iff.mp hs
    exact .inr (.inl ⟨msg, s', hi, hs', rfl⟩)
  next k hi =>
    split at hs
    next hreturned => exact .inr (.inr (.inl ⟨k, hi, hreturned, (Option.some.inj hs).symm⟩))
    next hnot =>
      obtain ⟨s', hs', rfl⟩ := Option.map_eq_some_iff.mp hs
      exact .inr (.inr (.inr ⟨k, s', hi, hnot, hs', rfl⟩))
  next => cases hs

theorem step_kernel {a : Label} (hs : (machine r).step x (.kernel a) = some x') :
    x.kernelAllows a ∧
      ∃ s', (system .ioUringCpuMt r).step x.state a = some s' ∧ x' = { x with state := s' } := by
  change (if x.kernelAllows a then _ else none) = some x' at hs
  split at hs
  next hallows =>
    obtain ⟨s', hs', rfl⟩ := Option.map_eq_some_iff.mp hs
    exact ⟨hallows, s', hs', rfl⟩
  next => cases hs

/-! ## Whose greeting a call carries -/

/-- What the threads have done, when the calls were made by the threads `owners`. -/
structure Inv (x : Threads) (owners : List ℕ) : Prop where
  nodup : owners.Nodup
  messages : x.state.calls.map Call.msg = owners.map greetingMsg
  mem_iff : ∀ (i : ℕ), i ∈ owners ↔ ∃ (t : Thread) (k : ℕ), x.threads[i]? = some t ∧ t.call = some k
  owner : ∀ (i k : ℕ) (t : Thread), x.threads[i]? = some t → t.call = some k →
    owners[k]? = some i
  sleeping : ∀ (i : ℕ) (msg : Message), x.threads[i]? = some (.sleeping msg) →
    msg = greetingMsg i
  exited : ∀ (i k : ℕ), x.threads[i]? = some (.exited k) →
    x.state.calls[k]?.map Call.phase = some .returned
  arg : ∀ (i : ℕ) (t : Thread), x.threads[i]? = some t →
    x.args[i]? = some (match t with | .created => some i | _ => none)
  length_args : x.args.length = x.threads.length
  few : x.threads.length ≤ numThreads
  joined : ∀ n : ℕ, x.main = .joining n → x.threads.length = numThreads ∧ n ≤ numThreads ∧
    ∀ i < n, ∃ k : ℕ, x.threads[i]? = some (.exited k)

/-- Only a claim adds a message, and a call that has returned stays there. -/
theorem step_keeps {a : Label} (ha : ∀ msg, a ≠ .claim msg)
    (hs : (system v r).step s a = some s') :
    s'.calls.map Call.msg = s.calls.map Call.msg ∧
      ∀ k : ℕ, s.calls[k]?.map Call.phase = some .returned →
        s'.calls[k]?.map Call.phase = some .returned := by
  cases a with
  | claim msg => exact absurd rfl (ha msg)
  | call j =>
    obtain ⟨c, sh', c', hc, hstep, rfl⟩ := step_call hs
    refine ⟨map_set_eq hc (Call.step_args hstep).1, fun k hk => ?_⟩
    by_cases hkj : k = j
    · subst hkj
      have hreturned : c.phase = .returned := by simpa [hc] using hk
      simp [Call.step, hreturned] at hstep
    · show (s.calls.set j c')[k]?.map Call.phase = _
      rw [List.getElem?_set_ne (Ne.symm hkj), hk]
  | take => obtain ⟨-, -, rfl⟩ := step_take hs; exact ⟨rfl, fun _ => id⟩
  | write j => obtain ⟨q, -, -, rfl⟩ := step_write hs; exact ⟨rfl, fun _ => id⟩
  | complete j => obtain ⟨q, _, -, -, -, rfl⟩ := step_complete hs; exact ⟨rfl, fun _ => id⟩
  | poller a => rw [step_poller hs]; exact ⟨rfl, fun _ => id⟩

namespace Inv

theorem of_init (h : (machine r).init x) : Inv x [] := by
  obtain ⟨hinit, hargs, hthreads, hmain⟩ := h
  constructor <;> simp [hinit.calls, hargs, hthreads, hmain, numThreads]

/-- The calls were made by different threads. -/
theorem length_calls (h : Inv x owners) : x.state.calls.length = owners.length := by
  simpa using congrArg List.length h.messages

theorem lt_of_mem (h : Inv x owners) (hi : i ∈ owners) : i < x.threads.length := by
  obtain ⟨t, k, ht, -⟩ := (h.mem_iff i).mp hi
  exact (List.getElem?_eq_some_iff.mp ht).1

/-- A thread that is still to make its call leaves room for it. -/
theorem length_lt (h : Inv x owners) (hi : i < x.threads.length) (hnot : i ∉ owners) :
    owners.length < numThreads := by
  have hnodup : (i :: owners).Nodup := List.nodup_cons.mpr ⟨hnot, h.nodup⟩
  have hsub : i :: owners ⊆ List.range x.threads.length := by
    intro j hj
    rw [List.mem_range]
    rcases List.mem_cons.mp hj with rfl | hj
    · exact hi
    · exact h.lt_of_mem hj
  have hle := (List.subperm_of_subset hnodup hsub).length_le
  rw [List.length_cons, List.length_range] at hle
  exact Nat.lt_of_lt_of_le hle h.few

/-- Steps of callers and kernel other than claims. -/
theorem of_keeps (h : Inv x owners) {a : Label} (ha : ∀ msg, a ≠ .claim msg)
    (hs : (system v r).step x.state a = some s') : Inv { x with state := s' } owners := by
  obtain ⟨hmsgs, hreturned⟩ := step_keeps ha hs
  exact
    { nodup := h.nodup
      messages := hmsgs.trans h.messages
      mem_iff := h.mem_iff
      owner := h.owner
      sleeping := h.sleeping
      exited := fun i k hi => hreturned k (h.exited i k hi)
      arg := h.arg
      length_args := h.length_args
      few := h.few
      joined := h.joined }

/-- A new thread has a block with its own number. -/
theorem spawn (h : Inv x owners) (hlt : x.threads.length < numThreads)
    (hmain : x.main = .creating) :
    Inv { x with
      args := x.args ++ [some x.threads.length]
      threads := x.threads ++ [.created] } owners := by
  have hold : ∀ (j : ℕ) (t : Thread), (x.threads ++ [.created])[j]? = some t → t ≠ .created →
      x.threads[j]? = some t := by
    intro j t ht hne
    rcases getElem?_concat_cases ht with ⟨-, rfl⟩ | ⟨-, ht⟩
    · exact absurd rfl hne
    · exact ht
  refine
    { nodup := h.nodup, messages := h.messages, mem_iff := fun j => ?mem_iff, owner := ?owner,
      sleeping := ?sleeping, exited := ?exited, arg := ?arg, length_args := ?length_args,
      few := ?few, joined := ?joined }
  case mem_iff =>
    rw [h.mem_iff]
    constructor
    · rintro ⟨t, k, ht, hk⟩
      refine ⟨t, k, ?_, hk⟩
      rw [List.getElem?_append_left (List.getElem?_eq_some_iff.mp ht).1, ht]
    · rintro ⟨t, k, ht, hk⟩
      exact ⟨t, k, hold j t ht (by rintro rfl; cases hk), hk⟩
  case owner =>
    intro j k t ht hk
    exact h.owner j k t (hold j t ht (by rintro rfl; cases hk)) hk
  case sleeping =>
    intro j msg hj
    exact h.sleeping j msg (hold j _ hj (by simp))
  case exited =>
    intro j k hj
    exact h.exited j k (hold j _ hj (by simp))
  case arg =>
    intro j t ht
    show (x.args ++ [some x.threads.length])[j]? = _
    rcases getElem?_concat_cases ht with ⟨rfl, rfl⟩ | ⟨hj, ht⟩
    · rw [← h.length_args, List.getElem?_concat_length]
    · rw [List.getElem?_append_left (h.length_args ▸ hj)]
      exact h.arg j t ht
  case length_args => simp [h.length_args]
  case few =>
    rw [List.length_append, List.length_singleton]
    exact hlt
  case joined =>
    intro n hn
    rw [hmain] at hn
    cases hn

theorem mainStep (h : Inv x owners) (hs : x.mainStep = some x') :
    Inv x' owners ∧ x'.state = x.state := by
  obtain ⟨-, rfl⟩ | ⟨hmain, hlt, rfl⟩ | ⟨-, hge, rfl⟩ | ⟨n, k, hmain, hk, rfl⟩ := mainStep_cases hs
  · exact ⟨{ h with joined := fun n hn => by cases hn }, rfl⟩
  · exact ⟨h.spawn hlt hmain, rfl⟩
  · refine ⟨{ h with joined := ?_ }, rfl⟩
    rintro n hn
    cases hn
    exact ⟨le_antisymm h.few hge, Nat.zero_le _, by simp⟩
  · refine ⟨{ h with joined := ?_ }, rfl⟩
    rintro m hm
    cases hm
    obtain ⟨hall, hle, hexited⟩ := h.joined n hmain
    have hlt := (List.getElem?_eq_some_iff.mp hk).1
    refine ⟨hall, by omega, fun i hi => ?_⟩
    rcases Nat.lt_succ_iff_lt_or_eq.mp hi with hi | rfl
    · exact hexited i hi
    · exact ⟨k, hk⟩

/-- `main` has not joined a thread that is still to exit. -/
theorem joined_set (h : Inv x owners) {t : Thread} (hi : x.threads[i]? = some t)
    (hne : ∀ k, t ≠ .exited k) (u : Thread) (n : ℕ) (hn : x.main = .joining n) :
    (x.threads.set i u).length = numThreads ∧ n ≤ numThreads ∧
      ∀ j < n, ∃ k : ℕ, (x.threads.set i u)[j]? = some (.exited k) := by
  obtain ⟨hall, hle, hexited⟩ := h.joined n hn
  refine ⟨by rw [List.length_set, hall], hle, fun j hj => ?_⟩
  obtain ⟨k, hk⟩ := hexited j hj
  have hij : i ≠ j := by
    rintro rfl
    exact hne k (Option.some.inj (hi.symm.trans hk))
  exact ⟨k, by rw [List.getElem?_set_ne hij, hk]⟩

/-- A thread reads its own number, whatever the others do, and frees the block. -/
theorem format (h : Inv x owners) {id : ℕ} (hi : x.threads[i]? = some .created)
    (hid : x.args[i]? = some (some id)) :
    Inv { x with
      args := x.args.set i none
      threads := x.threads.set i (.sleeping (greetingMsg id)) } owners := by
  obtain rfl : id = i := by
    have harg := h.arg i _ hi
    rw [hid] at harg
    simpa using harg
  have hlt := (List.getElem?_eq_some_iff.mp hi).1
  refine
    { nodup := h.nodup, messages := h.messages, mem_iff := fun j => ?mem_iff, owner := ?owner,
      sleeping := ?sleeping, exited := ?exited, arg := ?arg, length_args := ?length_args,
      few := ?few, joined := ?joined }
  case mem_iff =>
    rw [h.mem_iff]
    constructor
    · rintro ⟨t, k, ht, hk⟩
      have hne : id ≠ j := by
        rintro rfl
        rw [hi] at ht
        cases ht
        cases hk
      exact ⟨t, k, by rw [List.getElem?_set_ne hne, ht], hk⟩
    · rintro ⟨t, k, ht, hk⟩
      rcases getElem?_set_cases ht with ⟨-, rfl⟩ | ⟨-, ht⟩
      · cases hk
      · exact ⟨t, k, ht, hk⟩
  case owner =>
    intro j k t ht hk
    rcases getElem?_set_cases ht with ⟨-, rfl⟩ | ⟨-, ht⟩
    · cases hk
    · exact h.owner j k t ht hk
  case sleeping =>
    intro j msg hj
    rcases getElem?_set_cases hj with ⟨rfl, heq⟩ | ⟨-, hj⟩
    · cases heq
      rfl
    · exact h.sleeping j msg hj
  case exited =>
    intro j k hj
    rcases getElem?_set_cases hj with ⟨-, heq⟩ | ⟨-, hj⟩
    · cases heq
    · exact h.exited j k hj
  case arg =>
    intro j t ht
    show (x.args.set id none)[j]? = _
    rcases getElem?_set_cases ht with ⟨rfl, rfl⟩ | ⟨hne, ht⟩
    · rw [List.getElem?_set_self (h.length_args ▸ hlt)]
    · rw [List.getElem?_set_ne (Ne.symm hne)]
      exact h.arg j t ht
  case length_args => simp [h.length_args]
  case few =>
    rw [List.length_set]
    exact h.few
  case joined => exact h.joined_set hi (by simp) _

/-- A thread that has not called is not among the owners. -/
theorem not_mem (h : Inv x owners) {t : Thread} (hi : x.threads[i]? = some t)
    (ht : t.call = none) : i ∉ owners := by
  rw [h.mem_iff]
  rintro ⟨t', k, ht', hk⟩
  obtain rfl : t = t' := Option.some.inj (hi.symm.trans ht')
  rw [ht] at hk
  cases hk

/-- The claim makes the thread the owner of the next call. -/
theorem claim (h : Inv x owners) {msg : Message} (hi : x.threads[i]? = some (.sleeping msg))
    (hs : (system .ioUringCpuMt r).step x.state (.claim msg) = some s') :
    Inv { x with
      state := s'
      threads := x.threads.set i (.calling x.state.calls.length) } (owners ++ [i]) := by
  have hnot := h.not_mem hi rfl
  have hlt := (List.getElem?_eq_some_iff.mp hi).1
  obtain rfl := h.sleeping i msg hi
  obtain rfl := step_claim hs
  refine
    { nodup := ?nodup, messages := ?messages, mem_iff := fun j => ?mem_iff, owner := ?owner,
      sleeping := ?sleeping, exited := ?exited, arg := ?arg, length_args := ?length_args,
      few := ?few, joined := ?joined }
  case nodup =>
    rw [← List.concat_eq_append]
    exact h.nodup.concat hnot
  case messages => simp [h.messages]
  case mem_iff =>
    rw [List.mem_append, List.mem_singleton, h.mem_iff]
    by_cases hij : j = i
    · subst hij
      exact iff_of_true (.inr rfl) ⟨_, _, List.getElem?_set_self hlt, rfl⟩
    · simp only [hij, or_false, List.getElem?_set_ne (Ne.symm hij)]
  case owner =>
    intro j k t ht hk
    rcases getElem?_set_cases ht with ⟨rfl, rfl⟩ | ⟨-, ht⟩
    · obtain rfl : x.state.calls.length = k := Option.some.inj hk
      rw [h.length_calls, List.getElem?_concat_length]
    · have hold := h.owner j k t ht hk
      rw [List.getElem?_append_left (List.getElem?_eq_some_iff.mp hold).1, hold]
  case sleeping =>
    intro j msg hj
    rcases getElem?_set_cases hj with ⟨-, heq⟩ | ⟨-, hj⟩
    · cases heq
    · exact h.sleeping j msg hj
  case exited =>
    intro j k hj
    rcases getElem?_set_cases hj with ⟨-, heq⟩ | ⟨-, hj⟩
    · cases heq
    · obtain ⟨c, hc, hphase⟩ := Option.map_eq_some_iff.mp (h.exited j k hj)
      show (x.state.calls ++ _)[k]?.map Call.phase = _
      rw [List.getElem?_append_left (List.getElem?_eq_some_iff.mp hc).1, hc, Option.map_some,
        hphase]
  case arg =>
    intro j t ht
    rcases getElem?_set_cases ht with ⟨rfl, rfl⟩ | ⟨hne, ht⟩
    · exact h.arg j _ hi
    · exact h.arg j t ht
  case length_args => simpa using h.length_args
  case few =>
    rw [List.length_set]
    exact h.few
  case joined => exact h.joined_set hi (by simp) _

/-- A thread whose call has returned exits. -/
theorem exit (h : Inv x owners) (hi : x.threads[i]? = some (.calling k))
    (hreturned : x.state.calls[k]?.map Call.phase = some .returned) :
    Inv { x with threads := x.threads.set i (.exited k) } owners := by
  have hlt := (List.getElem?_eq_some_iff.mp hi).1
  refine
    { nodup := h.nodup, messages := h.messages, mem_iff := fun j => ?mem_iff, owner := ?owner,
      sleeping := ?sleeping, exited := ?exited, arg := ?arg, length_args := ?length_args,
      few := ?few, joined := ?joined }
  case mem_iff =>
    rw [h.mem_iff]
    by_cases hij : j = i
    · subst hij
      exact iff_of_true ⟨_, _, hi, rfl⟩ ⟨_, _, List.getElem?_set_self hlt, rfl⟩
    · simp only [List.getElem?_set_ne (Ne.symm hij)]
  case owner =>
    intro j l t ht hl
    rcases getElem?_set_cases ht with ⟨rfl, rfl⟩ | ⟨-, ht⟩
    · exact h.owner j l _ hi hl
    · exact h.owner j l t ht hl
  case sleeping =>
    intro j msg hj
    rcases getElem?_set_cases hj with ⟨-, heq⟩ | ⟨-, hj⟩
    · cases heq
    · exact h.sleeping j msg hj
  case exited =>
    intro j l hj
    rcases getElem?_set_cases hj with ⟨-, heq⟩ | ⟨-, hj⟩
    · cases heq
      exact hreturned
    · exact h.exited j l hj
  case arg =>
    intro j t ht
    rcases getElem?_set_cases ht with ⟨rfl, rfl⟩ | ⟨hne, ht⟩
    · exact h.arg j _ hi
    · exact h.arg j t ht
  case length_args => simpa using h.length_args
  case few =>
    rw [List.length_set]
    exact h.few
  case joined => exact h.joined_set hi (by simp) _

/-- Every step of the program keeps the invariant, and in order it is a step of callers and kernel
in order, or none. -/
theorem step (h : Inv x owners) {a : ThreadsLabel} (hs : (machine r).step x a = some x') :
    (∃ owners', Inv x' owners') ∧ (numThreads ≤ r.entries → x.inOrder a →
      (system .ioUringCpuMt r).Reaches (FewInOrder r) x.state x'.state) := by
  cases a with
  | main =>
    obtain ⟨h', heq⟩ := h.mainStep hs
    exact ⟨⟨owners, h'⟩, fun _ _ => heq ▸ .refl⟩
  | thread i =>
    obtain ⟨id, hi, hid, rfl⟩ | ⟨msg, s', hi, hs', rfl⟩ | ⟨k, hi, hreturned, rfl⟩ |
      ⟨k, s', hi, -, hs', rfl⟩ := threadStep_cases hs
    · exact ⟨⟨owners, h.format hi hid⟩, fun _ _ => .refl⟩
    · refine ⟨⟨_, h.claim (r := r) hi hs'⟩, fun hr _ => ?_⟩
      -- there are fewer calls than threads, hence room for one more
      have hlt := h.length_lt (List.getElem?_eq_some_iff.mp hi).1 (h.not_mem hi rfl)
      have hcalls : x.state.calls.length < r.entries := by
        rw [h.length_calls]
        omega
      have hfew : FewInOrder r x.state (.claim msg) := ⟨trivial, hcalls⟩
      exact .single hfew hs'
    · exact ⟨⟨owners, h.exit hi hreturned⟩, fun _ _ => .refl⟩
    · refine ⟨⟨owners, h.of_keeps (by simp) hs'⟩, fun _ hg => ?_⟩
      have hpub : publishesInOrder x.state (.call k) := hg k (by rw [hi]; rfl)
      have hfew : FewInOrder r x.state (.call k) := ⟨hpub, trivial⟩
      exact .single hfew hs'
  | kernel a =>
    obtain ⟨hallows, s', hs', rfl⟩ := step_kernel hs
    have hclaim : ∀ msg, a ≠ .claim msg := by
      rintro msg rfl
      exact hallows
    refine ⟨⟨owners, h.of_keeps hclaim hs'⟩, fun _ _ => .single ?_ hs'⟩
    cases a with
    | claim msg => exact absurd rfl (hclaim msg)
    | call i => exact hallows.elim
    | _ => exact ⟨trivial, trivial⟩

end Inv

/-- In a run of the program the calls and the kernel make a run in order, and every call carries
the greeting of a thread of its own. -/
theorem inv_of_runs {x₀ : Threads} {as : List ThreadsLabel} (hr : numThreads ≤ r.entries)
    (h : (machine r).Runs inOrder x₀ as x) :
    (∃ owners, Inv x owners) ∧
      ∃ bs, (system .ioUringCpuMt r).Runs (FewInOrder r) x₀.state bs x.state := by
  obtain ⟨bs, s, hrun, hinv, rfl⟩ := h.exists_refines (A := system .ioUringCpuMt r)
    (Q := FewInOrder r) (t := x₀.state)
    (R := fun x s => (∃ owners, Inv x owners) ∧ x.state = s)
    (fun hinit => ⟨hinit.1, ⟨[], .of_init hinit⟩, rfl⟩) <| by
      rintro x a x' s ⟨⟨owners, hinv⟩, rfl⟩ hg hs
      obtain ⟨hinv', hreach⟩ := hinv.step hs
      exact ⟨x'.state, hreach hr hg, hinv', rfl⟩
  exact ⟨hinv, bs, hrun⟩

end Threads

/-! ## Delivery -/

/-- The texts written so far, in the order of the tickets. -/
def State.texts (s : State) : List (List Byte) := s.reqs.filterMap Request.text

/-- Written texts are the images of a part of a list that names what each request writes. -/
theorem filterMap_eq_map_of_sublist {α β γ : Type*} {f : α → Option β} {g : γ → β} {l : List α}
    {m : List γ} (hlen : l.length ≤ m.length)
    (h : ∀ (j : ℕ) (a : α) (b : β) (c : γ), l[j]? = some a → f a = some b → m[j]? = some c →
      b = g c) :
    ∃ m' : List γ, m'.Sublist m ∧ l.filterMap f = m'.map g := by
  induction l generalizing m with
  | nil => exact ⟨[], List.nil_sublist m, rfl⟩
  | cons a l ih =>
    cases m with
    | nil => simp at hlen
    | cons c m =>
      obtain ⟨m', hsub, heq⟩ := ih (by simpa using hlen) fun j a b c ha hb hc =>
        h (j + 1) a b c (by simpa using ha) hb (by simpa using hc)
      cases hfa : f a with
      | none => exact ⟨m', hsub.cons c, by rw [List.filterMap_cons_none hfa, heq]⟩
      | some b =>
        refine ⟨c :: m', hsub.cons_cons c, ?_⟩
        rw [List.filterMap_cons_some hfa, heq, List.map_cons, h 0 a b c rfl hfa rfl]

namespace Threads

variable {r : Ring} {x x₀ : Threads} {as : List ThreadsLabel} {owners : List ℕ}

/-- After the join every thread has exited. -/
theorem Inv.exited_of_joined (h : Inv x owners) (hjoined : x.main = .joining numThreads) {i : ℕ}
    (hi : i < x.threads.length) : ∃ k : ℕ, x.threads[i]? = some (.exited k) := by
  obtain ⟨hall, -, hexited⟩ := h.joined _ hjoined
  exact hexited i (hall ▸ hi)

/-- After the join every call has returned. -/
theorem Inv.quiescent (h : Inv x owners) (hjoined : x.main = .joining numThreads) :
    x.state.Quiescent := by
  intro c hc
  obtain ⟨k, hk⟩ := List.mem_iff_getElem?.mp hc
  have hlt : k < owners.length := h.length_calls ▸ (List.getElem?_eq_some_iff.mp hk).1
  have hmem : owners[k] ∈ owners := List.getElem_mem hlt
  obtain ⟨l, hl⟩ := h.exited_of_joined hjoined (h.lt_of_mem hmem)
  -- the owner of the call has exited from this very call
  have howner := h.owner _ l _ hl rfl
  obtain ⟨hlt', heq⟩ := List.getElem?_eq_some_iff.mp howner
  obtain rfl : l = k := h.nodup.getElem_inj_iff.mp heq
  simpa [hk] using h.exited _ l hl

end Threads

theorem State.length_texts {s : State} (h : ∀ q ∈ s.reqs, q.text ≠ none) :
    s.texts.length = s.reqs.length := by
  rw [texts, List.length_filterMap_eq_countP, List.countP_eq_length]
  exact fun q hq => Option.isSome_iff_ne_none.mpr (h q hq)

end GpuLibc
