import GpuLibc.Uring.Threads

/-!
# What the programs print

The three programs that pass a fixed list of messages, one call after the other: from the host,
from a target region that the host waits for, and from the host again. The kernel goes its own way
meanwhile, up to the teardown of the context, in front of which a program stops here. The messages
are string literals with a length of their own, which in `io_uring_gpu_no_poll` reaches behind the
literal in two calls.

* `follows`: a program that makes the calls of a list.
* `Program.messages`: the lists.
* `Program.prints`: what is written are these messages, in the order of the program.
-/

namespace GpuLibc

variable {v : Variant} {r : Ring} {msgs : List Message} {s₀ s s' : State} {as : List Label}
  {i : ℕ} {c : Call}

/-- A program that makes the calls with the messages of the list one after the other. -/
def follows (msgs : List Message) (s : State) : Label → Prop
  | .claim msg => s.Quiescent ∧ msgs[s.calls.length]? = some msg
  | _ => True

instance (msgs : List Message) (s : State) : ∀ a, Decidable (follows msgs s a)
  | .claim msg => inferInstanceAs (Decidable (s.Quiescent ∧ msgs[s.calls.length]? = some msg))
  | .call _ | .take | .write _ | .complete _ | .poller _ => inferInstanceAs (Decidable True)

/-! ## The messages -/

/-- The characters of a string literal. -/
def literal (text : String) : List Byte := text.toList.map fun c => BitVec.ofNat 8 c.toNat

/-- The bytes of a literal that are passed with the length `n`: behind the literal come its
terminator and whatever lies there. -/
def passed (text : String) (behind : ℕ → Byte) (n : ℕ) : List Byte :=
  (literal text ++ 0 :: (List.range n).map behind).take n

theorem length_passed (text : String) (behind : ℕ → Byte) (n : ℕ) :
    (passed text behind n).length = n := by
  rw [passed, List.length_take, List.length_append, List.length_cons, List.length_map,
    List.length_range]
  omega

/-- The arguments `text` and `sizeof(text) - 1` of a call. -/
def Message.ofText (text : String) (h : text.length < msgBufSize) : Message :=
  { bytes := literal text, short := by rwa [literal, List.length_map] }

/-- The arguments `text` and `n` of a call. -/
def Message.ofLiteral (text : String) (behind : ℕ → Byte) (n : ℕ) (h : n < msgBufSize) : Message :=
  { bytes := passed text behind n, short := by rwa [length_passed] }

/-- The programs. -/
inductive Program
  | gpuSvmDemo
  | ioUringSvmCpuOnly
  | ioUringGpuNoPoll
deriving DecidableEq

namespace Program

/-- The copy of the routine that the program calls, on the host and on the device. -/
def variant : Program → Variant
  | gpuSvmDemo => .gpuSvmDemo
  | ioUringSvmCpuOnly => .ioUringSvmCpuOnly
  | ioUringGpuNoPoll => .ioUringGpuNoPoll

/-- The messages in the order of the calls; `behind i` is what lies behind the literal of call
number `i`. -/
def messages (behind : ℕ → ℕ → Byte) : Program → List Message
  | gpuSvmDemo =>
    -- the third and the fourth call are those of `uring_fn`
    [.ofText "First hello from the CPU...\n" (by decide),
      .ofText "Second hello from CPU (again)...\n" (by decide),
      .ofText "First hello from the device!\n" (by decide),
      .ofText "Second hello from the device! - yes, again\n" (by decide),
      .ofText "A third hello from the, CPU after kernel launch...\n" (by decide)]
  | ioUringSvmCpuOnly =>
    [.ofLiteral "Hello from the CPU using SVM pointer..." (behind 0) 39 (by decide)]
  | ioUringGpuNoPoll =>
    -- the third call is that of `uring_fn`
    [.ofLiteral "Hello from the CPU...\n\x00" (behind 0) 24 (by decide),
      .ofLiteral "Hello again from CPU...\n\x00" (behind 1) 44 (by decide),
      .ofLiteral "Hello from the device!\n\x00" (behind 2) 28 (by decide),
      .ofLiteral "Hello from the CPU after kernel...\n\x00" (behind 3) 36 (by decide)]

end Program

/-! ## Calls in the order of the program -/

/-- A call that has not returned is the last one. -/
theorem OthersReturned.last (h : OthersReturned s) (hc : s.calls[i]? = some c)
    (hphase : c.phase ≠ .returned) : i + 1 = s.calls.length := by
  have hlt := (List.getElem?_eq_some_iff.mp hc).1
  by_contra hne
  exact hphase (h i c hc (by omega))

/-- Calls that do not overlap store the tail in the order of their tickets. -/
theorem OthersReturned.publishesInOrder (h : OthersReturned s) (a : Label) :
    publishesInOrder s a := by
  cases a with
  | call i =>
    intro hpub d hd
    obtain ⟨c, hc, hphase⟩ := Option.map_eq_some_iff.mp hpub
    have hlast := h.last hc (by rw [hphase]; simp)
    obtain ⟨j, hlt, hj⟩ := getElem?_of_mem_take hd
    exact Call.published_of_returned (h j d hj (by omega))
  | _ => trivial

/-- What holds along a program. -/
structure Follows (msgs : List Message) (s : State) : Prop where
  others : OthersReturned s
  calls : s.calls.map Call.msg = msgs.take s.calls.length

namespace Follows

theorem of_init (h : Initial s) : Follows msgs s where
  others := by simp [OthersReturned, h.calls]
  calls := by simp [h.calls]

theorem length_le (h : Follows msgs s) : s.calls.length ≤ msgs.length := by
  have hlen := congrArg List.length h.calls
  rw [List.length_map, List.length_take] at hlen
  omega

theorem step {a : Label} (h : Follows msgs s) (hg : follows msgs s a)
    (hs : (system v r).step s a = some s') : Follows msgs s' where
  others := by
    refine h.others.step ?_ hs
    cases a with
    | claim msg => exact hg.1
    | _ => trivial
  calls := by
    cases a with
    | claim msg =>
      obtain rfl := step_claim hs
      -- the message of the new call is the next one
      have hnext : msgs[s.calls.length]? = some msg := hg.2
      rw [List.map_append, h.calls, List.length_append, List.length_singleton, List.take_add_one,
        hnext]
      rfl
    | call i =>
      obtain ⟨c, sh', c', hc, hstep, rfl⟩ := step_call hs
      rw [List.length_set, map_set_eq hc (Call.step_args hstep).1]
      exact h.calls
    | take => obtain ⟨-, -, rfl⟩ := step_take hs; exact h.calls
    | write j => obtain ⟨q, -, -, rfl⟩ := step_write hs; exact h.calls
    | complete j => obtain ⟨q, _, -, -, -, rfl⟩ := step_complete hs; exact h.calls
    | poller a => rw [step_poller hs]; exact h.calls

end Follows

/-- A program with no more calls than entries is one of few calls in ticket order. -/
theorem runs_few_of_follows (hlen : msgs.length ≤ r.entries)
    (h : (system v r).Runs (follows msgs) s₀ as s) :
    Follows msgs s ∧ (system v r).Runs (FewInOrder r) s₀ as s := by
  refine ⟨h.invariant .of_init fun _ _ _ hinv hg hs => hinv.step hg hs, ?_⟩
  refine h.imp (I := Follows msgs) .of_init (fun _ _ _ hinv hg hs => hinv.step hg hs) ?_
  intro s a hinv hg
  refine ⟨hinv.others.publishesInOrder a, ?_⟩
  cases a with
  | claim msg =>
    obtain ⟨hlt, -⟩ := List.getElem?_eq_some_iff.mp hg.2
    exact hlt.trans_le hlen
  | _ => trivial

/-! ## The texts -/

/-- What the kernel has written are messages of the program, in its order. -/
theorem texts_of_follows (hlen : msgs.length ≤ r.entries)
    (h : (system v r).Runs (follows msgs) s₀ as s) :
    ∃ written : List Message, written.Sublist msgs ∧ s.texts = written.map Message.bytes := by
  obtain ⟨hinv, hrun⟩ := runs_few_of_follows hlen h
  obtain ⟨⟨-, hle, -⟩, hintact⟩ := intact_of_few hrun
  refine filterMap_eq_map_of_sublist (hle.trans hinv.length_le) fun j q text msg hq htext hmsg => ?_
  obtain ⟨c, hc, -⟩ := hintact.entries j q hq
  have hlt := (List.getElem?_eq_some_iff.mp hc).1
  have hj := congrArg (fun l => l[j]?) hinv.calls
  simp only [List.getElem?_map, hc, List.getElem?_take_of_lt hlt, hmsg, Option.map_some,
    Option.some.injEq] at hj
  rw [hintact.texts j q c text hq hc htext, hj]

/-- Once the program has made its calls and the kernel has caught up, everything is written. -/
theorem texts_eq_of_follows (hlen : msgs.length ≤ r.entries)
    (h : (system v r).Runs (follows msgs) s₀ as s) (hall : s.calls.length = msgs.length)
    (hquiet : s.Quiescent) (hempty : s.shared.sringHead = s.shared.sringTail)
    (hwritten : ∀ q ∈ s.reqs, q.text ≠ none) : s.texts = msgs.map Message.bytes := by
  obtain ⟨written, hsub, htexts⟩ := texts_of_follows hlen h
  have htaken := taken_of_few (runs_few_of_follows hlen h).2
    (fun c hc => hquiet.published hc) hempty
  have hcount : written.length = msgs.length := by
    have hlength := State.length_texts hwritten
    rw [htexts, List.length_map] at hlength
    rw [hlength, htaken, hall]
  rw [htexts, hsub.eq_of_length hcount]

theorem Program.length_messages_le (m : Program) (behind : ℕ → ℕ → Byte) (msgPool cqEntries : ℕ)
    (hcq : 2 ^ Nat.clog 2 queueDepth.val ≤ cqEntries) :
    (m.messages behind).length ≤ (setupUring queueDepth msgPool cqEntries hcq).entries := by
  have hentries : (setupUring queueDepth msgPool cqEntries hcq).entries = 16 := by
    show 2 ^ Nat.clog 2 queueDepth.val = 16
    decide +kernel
  rw [hentries]
  cases m <;> simp [messages]

/-- However the kernel proceeds, the calls of each program carry its messages in order, what has
been written before the teardown are some of them, unchanged and in this order, and once the calls
have returned and the kernel has caught up, all of them. -/
theorem Program.prints (m : Program) (behind : ℕ → ℕ → Byte) (msgPool cqEntries : ℕ)
    (hcq : 2 ^ Nat.clog 2 queueDepth.val ≤ cqEntries) {s₀ s : State} {as : List Label}
    (h : (system m.variant (setupUring queueDepth msgPool cqEntries hcq)).Runs
      (follows (m.messages behind)) s₀ as s) :
    s.calls.map Call.msg = (m.messages behind).take s.calls.length ∧
      (∃ written : List Message, written.Sublist (m.messages behind) ∧
        s.texts = written.map Message.bytes) ∧
      (s.calls.length = (m.messages behind).length → s.Quiescent →
        s.shared.sringHead = s.shared.sringTail → (∀ q ∈ s.reqs, q.text ≠ none) →
          s.texts = (m.messages behind).map Message.bytes) := by
  have hlen := m.length_messages_le behind msgPool cqEntries hcq
  exact ⟨(runs_few_of_follows hlen h).1.calls, texts_of_follows hlen h,
    texts_eq_of_follows hlen h⟩

/-- Other bytes behind each literal. -/
def behindLiterals (i : ℕ) (_ : ℕ) : Byte := BitVec.ofNat 8 (i + 1)

/-- The calls of `io_uring_gpu_no_poll`, of which the kernel takes two before the others are made,
and writes the second one first. -/
def printing : List Label :=
  let call (i : ℕ) (msg : Message) : List Label := .claim msg :: noPollCall i
  let msgs := Program.messages behindLiterals .ioUringGpuNoPoll
  ((msgs.take 2).mapIdx call).flatten ++ [.take, .take, .write 1] ++
    ((msgs.drop 2).mapIdx fun i => call (i + 2)).flatten ++
    [.take, .write 0, .take, .write 3, .write 2]

theorem prints_printing :
    ∃ s : State, (system Program.ioUringGpuNoPoll.variant demoRing).Runs
        (follows (Program.ioUringGpuNoPoll.messages behindLiterals)) .afterSetup printing s ∧
      s.texts.length = 4 ∧
      s.texts = (Program.ioUringGpuNoPoll.messages behindLiterals).map Message.bytes := by
  have hrun : (system Program.ioUringGpuNoPoll.variant demoRing).Runs
      (follows (Program.ioUringGpuNoPoll.messages behindLiterals)) .afterSetup printing _ :=
    .of_runUnder State.initial_afterSetup (by decide +kernel)
  obtain ⟨-, -, hall⟩ := Program.prints .ioUringGpuNoPoll behindLiterals 0x10000 32 (by decide) hrun
  exact ⟨_, hrun, by decide +kernel,
    hall (by decide +kernel) (by decide +kernel) (by decide +kernel) (by decide +kernel)⟩

end GpuLibc
