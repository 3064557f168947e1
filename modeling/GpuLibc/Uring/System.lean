import GpuLibc.Lib.Machine
import GpuLibc.Uring.Perror

/-!
# Callers and kernel

The system of any number of calls of the print routine and the kernel side of the ring: the
polling thread, which takes published entries one at a time, the requests it has taken, which
write their text and complete at later steps of their own, and the idle protocol of the polling
thread. Every party moves by atomic steps in an arbitrary order.

`State.calls` lists the calls in the order of their claims, so that the index of a call is its
ticket counted without wrap; `State.reqs` lists the requests in the order they were taken, so that
its length is the head counted without wrap.
-/

namespace GpuLibc

/-- An entry taken by the kernel, with what has happened to it since. -/
structure Request where
  /-- The ring position, the value of `sring_head` when the entry was taken. -/
  pos : Word
  /-- The kernel's copy of the entry. -/
  sqe : Sqe
  /-- What stood in the entry's window when it was taken. -/
  window : List Byte
  /-- The text written, once the write has been performed. -/
  text : Option (List Byte)
  completed : Bool
deriving DecidableEq

/-- The fields of `struct io_uring_cqe`. -/
structure Cqe where
  userData : ℕ
  res : ℤ
deriving DecidableEq

/-- The polling thread. -/
inductive Poller
  /-- Awake and taking entries. -/
  | polling
  /-- It found the ring empty and has set `IORING_SQ_NEED_WAKEUP`. -/
  | flagged
  /-- It has checked the tail again and is about to sleep. -/
  | rechecked
  | asleep
deriving DecidableEq

/-- The steps of the idle protocol of the polling thread. -/
inductive PollerStep
  | needWakeup
  | recheck
  | sleep
  /-- `io_uring_enter(fd, 0, 0, IORING_ENTER_SQ_WAKEUP)` by user code. -/
  | enterWakeup
deriving DecidableEq

/-- A state of the whole system. -/
structure State where
  shared : Shared
  calls : List Call
  reqs : List Request
  /-- The completions posted so far, in order. -/
  posted : List Cqe
  /-- How many completions user code has released by storing to `cring_head`. -/
  reaped : ℕ
  poller : Poller

/-- Who moves next. -/
inductive Label
  /-- A new call claims its ticket. -/
  | claim (msg : Message)
  /-- The call with index `i` makes its next step. -/
  | call (i : ℕ)
  /-- The kernel takes an entry. -/
  | take
  /-- The kernel performs the write of request `j`. -/
  | write (j : ℕ)
  /-- The kernel posts the completion of request `j`. -/
  | complete (j : ℕ)
  | poller (a : PollerStep)
deriving DecidableEq

/-- The message, the cookie and the window that a call hands over at its ring position. -/
def Call.entry (r : Ring) (c : Call) : Word × Sqe × List Byte :=
  (c.tail, r.sqe c.tail c.msg, c.msg.window)

/-- What the kernel saw when it took a request. -/
def Request.entry (q : Request) : Word × Sqe × List Byte := (q.pos, q.sqe, q.window)

theorem Request.sqe_eq {r : Ring} {q : Request} {c : Call} (h : q.entry = c.entry r) :
    q.sqe = r.sqe c.tail c.msg :=
  congrArg (fun e => e.2.1) h

theorem Request.window_eq {r : Ring} {q : Request} {c : Call} (h : q.entry = c.entry r) :
    q.window = c.msg.window :=
  congrArg (fun e => e.2.2) h

theorem Request.userData_eq {r : Ring} {q : Request} {c : Call} (h : q.entry = c.entry r) :
    q.sqe.userData = (r.idx c.tail).toNat := by
  rw [sqe_eq h]
  rfl

namespace State

/-- The number of calls that have published. -/
def published (s : State) : ℕ := s.calls.countP Call.published

/-- No call is in progress. -/
def Quiescent (s : State) : Prop := ∀ c ∈ s.calls, c.phase = .returned

instance (s : State) : Decidable s.Quiescent :=
  inferInstanceAs (Decidable (∀ c ∈ s.calls, c.phase = .returned))

theorem Quiescent.published {s : State} (h : s.Quiescent) {c : Call} (hc : c ∈ s.calls) :
    c.published = true :=
  Call.published_of_returned (h c hc)

/-- The request the kernel would take now: entry `sqes[sring_array[head & mask]]`. -/
def nextRequest (r : Ring) (s : State) : Request :=
  -- the kernel masks the head, and finds the entry through the indirection array
  let e := s.shared.sqes (s.shared.sringArray (r.idx s.shared.sringHead).toNat).toNat
  { pos := s.shared.sringHead
    sqe := e
    window := ByteMemory.read s.shared.mem e.addr msgBufSize
    text := none
    completed := false }

/-- The polling thread takes the entry at the head while the head differs from the tail. -/
def take (r : Ring) (s : State) : Option State :=
  if s.poller = .polling ∧ s.shared.sringHead ≠ s.shared.sringTail then
    some { s with
      shared := { s.shared with sringHead := s.shared.sringHead + 1 }
      reqs := s.reqs ++ [s.nextRequest r] }
  else none

/-- The write of a request reads `sqe->len` bytes at `sqe->addr` when it is performed. -/
def write (s : State) (j : ℕ) : Option State :=
  s.reqs[j]?.bind fun q =>
    -- each write is performed once, at whatever moment the kernel gets to it
    if q.text = none then
      some { s with
        reqs := s.reqs.set j
          { q with text := some (ByteMemory.read s.shared.mem q.sqe.addr q.sqe.len) } }
    else none

/-- A request whose write was performed posts one completion. -/
def complete (s : State) (j : ℕ) : Option State :=
  s.reqs[j]?.bind fun q =>
    q.text.bind fun text =>
      if q.completed = false then
        some { s with
          reqs := s.reqs.set j { q with completed := true }
          posted := s.posted ++ [{ userData := q.sqe.userData, res := text.length }] }
      else none

/-- The idle protocol: with an empty ring the thread sets the flag, checks the tail again and goes
to sleep; a wake-up clears the flag. -/
def pollerStep (s : State) : PollerStep → Option State
  | .needWakeup =>
    if s.poller = .polling ∧ s.shared.sringHead = s.shared.sringTail then
      some { s with
        shared := { s.shared with sringFlags := s.shared.sringFlags ||| ioringSqNeedWakeup }
        poller := .flagged }
    else none
  | .recheck =>
    -- an entry published since the flag was set is noticed here, and not later
    if s.poller = .flagged then
      if s.shared.sringHead = s.shared.sringTail then some { s with poller := .rechecked }
      else
        some { s with
          shared := { s.shared with sringFlags := s.shared.sringFlags &&& ~~~ioringSqNeedWakeup }
          poller := .polling }
    else none
  | .sleep => if s.poller = .rechecked then some { s with poller := .asleep } else none
  | .enterWakeup =>
    -- user code may ask at any time, also for a thread that is awake
    some { s with
      shared := { s.shared with sringFlags := s.shared.sringFlags &&& ~~~ioringSqNeedWakeup }
      poller := .polling }

/-- The step function of the system. -/
def step (v : Variant) (r : Ring) (s : State) : Label → Option State
  | .claim msg =>
    some { s with
      shared := (claim v s.shared msg).1
      calls := s.calls ++ [(claim v s.shared msg).2] }
  | .call i =>
    s.calls[i]?.bind fun c =>
      (c.step v r s.shared).map fun p => { s with shared := p.1, calls := s.calls.set i p.2 }
  | .take => s.take r
  | .write j => s.write j
  | .complete j => s.complete j
  | .poller a => s.pollerStep a

end State

/-- The call is in the wait loop, and its test fails on the current head. -/
def Spinning (r : Ring) (s : State) (c : Call) : Prop :=
  c.phase = .waitRoom ∧ ¬ hasRoom r s.shared c

instance (r : Ring) (s : State) (c : Call) : Decidable (Spinning r s c) :=
  inferInstanceAs (Decidable (_ ∧ _))

/-- The state that `setup_uring` leaves: nothing submitted, `sq_tail_cache` loaded from the tail,
the polling thread awake. The counters may start at any value. -/
structure Initial (s : State) : Prop where
  calls : s.calls = []
  reqs : s.reqs = []
  posted : s.posted = []
  reaped : s.reaped = 0
  cache : s.shared.sqTailCache = s.shared.sringTail
  head : s.shared.sringHead = s.shared.sringTail
  poller : s.poller = .polling

/-- The polling thread stays awake. -/
def pollerAwake (_ : State) : Label → Prop
  | .poller _ => False
  | _ => True

instance (s : State) : ∀ a, Decidable (pollerAwake s a)
  | .poller _ => inferInstanceAs (Decidable False)
  | .claim _ | .call _ | .take | .write _ | .complete _ => inferInstanceAs (Decidable True)

/-- The system of callers and kernel on the ring `r`, for the copy `v` of the routine. -/
def system (v : Variant) (r : Ring) : Machine State Label where
  init := Initial
  step s a := s.step v r a

/-- The memory that `setup_uring` leaves, with the counters at zero: every buffer is cleared. -/
def Shared.zero : Shared :=
  { sqTailCache := 0
    sringHead := 0
    sringTail := 0
    sringFlags := 0
    sringArray := fun _ => 0
    sqes := fun _ => .zero
    mem := fun _ => 0 }

/-- The state after `setup_uring` on cleared memory. -/
def State.afterSetup : State :=
  { shared := .zero, calls := [], reqs := [], posted := [], reaped := 0, poller := .polling }

theorem State.initial_afterSetup : Initial .afterSetup :=
  ⟨rfl, rfl, rfl, rfl, rfl, rfl, rfl⟩

/-- The ring of the demo: depth 12 rounded up to 16 entries, and a completion ring twice as
large. -/
def demoRing : Ring := setupUring queueDepth 0x10000 32 (by decide)

/-- Two messages for concrete runs. -/
def helloA : Message := { bytes := [0x41], short := by decide }

def helloB : Message := { bytes := [0x42], short := by decide }

/-- The steps of a call of `gpu_svm_demo` from the test for room to the store of the tail. -/
def callSteps (i : ℕ) : List Label := List.replicate 7 (.call i)

/-- Calls one after the other; the kernel takes each entry, writes its text and posts its
completion before the next call starts. -/
def rounds (n : ℕ) : List Label :=
  (List.range n).flatMap fun i =>
    [.claim helloA] ++ callSteps i ++ [.take, .write i, .complete i]

/-! ## Looking up an updated or extended list -/

theorem getElem?_set_cases {α : Type*} {l : List α} {i j : ℕ} {x y : α}
    (h : (l.set i x)[j]? = some y) :
    j = i ∧ y = x ∨ j ≠ i ∧ l[j]? = some y := by
  rw [List.getElem?_set] at h
  split at h
  next heq =>
    split at h
    · exact .inl ⟨heq.symm, (Option.some.inj h).symm⟩
    · cases h
  next hne => exact .inr ⟨fun heq => hne heq.symm, h⟩

theorem getElem?_concat_cases {α : Type*} {l : List α} {j : ℕ} {x y : α}
    (h : (l ++ [x])[j]? = some y) :
    j = l.length ∧ y = x ∨ j < l.length ∧ l[j]? = some y := by
  -- before the new element, at it, or behind the list
  rcases lt_trichotomy j l.length with hlt | rfl | hgt
  · exact .inr ⟨hlt, by rwa [List.getElem?_append_left hlt] at h⟩
  · exact .inl ⟨rfl, by simpa using h.symm⟩
  · rw [List.getElem?_eq_none (by simp; omega)] at h
    cases h

/-- The element at the end of an extended list, and its replacement. -/
theorem getElem?_concat_self {α : Type*} {l : List α} {n : ℕ} (h : l.length = n) (x : α) :
    (l ++ [x])[n]? = some x := by
  rw [← h]
  exact List.getElem?_concat_length

theorem set_concat_self {α : Type*} {l : List α} {n : ℕ} (h : l.length = n) (x y : α) :
    (l ++ [x]).set n y = l ++ [y] := by
  rw [List.set_append_right _ _ h.le, h, Nat.sub_self, List.set_cons_zero]

theorem getElem?_of_mem_take {α : Type*} {l : List α} {n : ℕ} {x : α} (h : x ∈ l.take n) :
    ∃ i, i < n ∧ l[i]? = some x := by
  obtain ⟨i, hi⟩ := List.mem_iff_getElem?.mp h
  have hlt : i < n := by
    have hlen := (List.getElem?_eq_some_iff.mp hi).1
    rw [List.length_take] at hlen
    omega
  rw [List.getElem?_take_of_lt hlt] at hi
  exact ⟨i, hlt, hi⟩

/-- Replacing an element by one with the same image under `f` does not change the images. -/
theorem map_set_eq {α β : Type*} {f : α → β} {l : List α} {i : ℕ} {x y : α} (h : l[i]? = some x)
    (hf : f y = f x) : (l.set i y).map f = l.map f := by
  refine List.ext_getElem? fun j => ?_
  rw [List.getElem?_map, List.getElem?_map, List.getElem?_set]
  split
  next heq =>
    subst heq
    rw [if_pos (List.getElem?_eq_some_iff.mp h).1, h, Option.map_some, Option.map_some, hf]
  next => rfl

/-! ## What one step does -/

variable {v : Variant} {r : Ring} {s s' : State}

theorem step_claim {msg : Message} (h : (system v r).step s (.claim msg) = some s') :
    s' = { s with
      shared := { s.shared with sqTailCache := s.shared.sqTailCache + 1 }
      calls := s.calls ++ [{ msg, tail := s.shared.sqTailCache, phase := v.afterClaim }] } :=
  (Option.some.inj h).symm

theorem step_call {i : ℕ} (h : (system v r).step s (.call i) = some s') :
    ∃ c sh' c', s.calls[i]? = some c ∧ c.step v r s.shared = some (sh', c') ∧
      s' = { s with shared := sh', calls := s.calls.set i c' } := by
  obtain ⟨c, hc, hmap⟩ := Option.bind_eq_some_iff.mp h
  obtain ⟨p, hp, rfl⟩ := Option.map_eq_some_iff.mp hmap
  exact ⟨c, p.1, p.2, hc, hp, rfl⟩

theorem step_take (h : (system v r).step s .take = some s') :
    s.poller = .polling ∧ s.shared.sringHead ≠ s.shared.sringTail ∧
      s' = { s with
        shared := { s.shared with sringHead := s.shared.sringHead + 1 }
        reqs := s.reqs ++ [s.nextRequest r] } := by
  change s.take r = some s' at h
  rw [State.take] at h
  split at h
  next hp => exact ⟨hp.1, hp.2, (Option.some.inj h).symm⟩
  next => cases h

theorem step_write {j : ℕ} (h : (system v r).step s (.write j) = some s') :
    ∃ q, s.reqs[j]? = some q ∧ q.text = none ∧
      s' = { s with
        reqs := s.reqs.set j
          { q with text := some (ByteMemory.read s.shared.mem q.sqe.addr q.sqe.len) } } := by
  obtain ⟨q, hq, h⟩ := Option.bind_eq_some_iff.mp h
  split at h
  next htext => exact ⟨q, hq, htext, (Option.some.inj h).symm⟩
  next => cases h

theorem step_complete {j : ℕ} (h : (system v r).step s (.complete j) = some s') :
    ∃ q text, s.reqs[j]? = some q ∧ q.text = some text ∧ q.completed = false ∧
      s' = { s with
        reqs := s.reqs.set j { q with completed := true }
        posted := s.posted ++ [{ userData := q.sqe.userData, res := text.length }] } := by
  obtain ⟨q, hq, h⟩ := Option.bind_eq_some_iff.mp h
  obtain ⟨text, htext, h⟩ := Option.bind_eq_some_iff.mp h
  split at h
  next hcompleted => exact ⟨q, text, hq, htext, hcompleted, (Option.some.inj h).symm⟩
  next => cases h

/-- The idle protocol changes the flag word and the polling thread, nothing else. -/
theorem step_poller {a : PollerStep} (h : (system v r).step s (.poller a) = some s') :
    s' = { s with
      shared := { s.shared with sringFlags := s'.shared.sringFlags }
      poller := s'.poller } := by
  change s.pollerStep a = some s' at h
  cases a <;> simp only [State.pollerStep] at h
  -- only the wake-up is enabled in every state
  case enterWakeup => cases h; rfl
  all_goals
    split at h
    next => first | (cases h; rfl) | (split at h <;> cases h <;> rfl)
    next => cases h

end GpuLibc
