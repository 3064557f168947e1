import GpuLibc.Lib.Machine
import Mathlib.Data.List.TakeDrop

/-!
# Bounded FIFO queues

The abstract queue a ring buffer is meant to be: a list of at most `capacity` elements, appended
at the back and removed at the front. A dequeue is labelled with the element it hands out, so that
the labels of a run alone say what an observer of the two ends sees.

* `run_conservation`: what was enqueued is what was dequeued followed by what is still queued.
* `dequeued_isPrefix`: the elements handed out are a prefix of the elements accepted.
* `length_le_of_run`: the queue never holds more than its capacity.
-/

namespace BoundedQueue

variable {β : Type*}

/-- The operations of a queue, a dequeue carrying the element it returns. -/
inductive Op (β : Type*)
  | enq (x : β)
  | deq (x : β)

/-- The elements enqueued by a list of operations, in order. -/
def enqueued : List (Op β) → List β
  | [] => []
  | .enq x :: ops => x :: enqueued ops
  | .deq _ :: ops => enqueued ops

/-- The elements handed out by a list of operations, in order. -/
def dequeued : List (Op β) → List β
  | [] => []
  | .enq _ :: ops => dequeued ops
  | .deq x :: ops => x :: dequeued ops

theorem dequeued_append (ops ops' : List (Op β)) :
    dequeued (ops ++ ops') = dequeued ops ++ dequeued ops' := by
  induction ops with
  | nil => rfl
  | cons op ops ih => cases op <;> simp [dequeued, ih]

variable [DecidableEq β]

/-- One operation: an enqueue needs room, a dequeue needs its element at the front. -/
def step (capacity : ℕ) (q : List β) : Op β → Option (List β)
  | .enq x => if q.length < capacity then some (q ++ [x]) else none
  | .deq x => if q.head? = some x then some q.tail else none

/-- The bounded queue as a machine that starts empty. -/
def machine (β : Type*) [DecidableEq β] (capacity : ℕ) : Machine (List β) (Op β) where
  init q := q = []
  step := step capacity

variable {capacity : ℕ} {q q' : List β} {ops : List (Op β)}

theorem step_enq {x : β} (h : q.length < capacity) :
    (machine β capacity).step q (.enq x) = some (q ++ [x]) :=
  if_pos h

theorem step_deq (x : β) (q : List β) : (machine β capacity).step (x :: q) (.deq x) = some q :=
  if_pos rfl

/-- What was in the queue and what was enqueued is what was dequeued and what remains. -/
theorem run_conservation (h : (machine β capacity).run q ops = some q') :
    q ++ enqueued ops = dequeued ops ++ q' := by
  induction ops generalizing q with
  | nil =>
    obtain rfl : q = q' := by simpa using h
    simp [enqueued, dequeued]
  | cons op ops ih =>
    obtain ⟨t, ht, hrest⟩ := Option.bind_eq_some_iff.mp h
    have hcons := ih hrest
    cases op with
    | enq x =>
      obtain ⟨-, rfl⟩ : q.length < capacity ∧ q ++ [x] = t := by simpa [machine, step] using ht
      simpa [enqueued, dequeued] using hcons
    | deq x =>
      obtain ⟨hhead, rfl⟩ : q.head? = some x ∧ q.tail = t := by simpa [machine, step] using ht
      obtain ⟨q, rfl⟩ := List.head?_eq_some_iff.mp hhead
      simpa [enqueued, dequeued] using hcons

/-- From the empty queue, the elements handed out are a prefix of the elements accepted. -/
theorem dequeued_isPrefix (h : (machine β capacity).run [] ops = some q') :
    dequeued ops <+: enqueued ops :=
  ⟨q', (run_conservation h).symm⟩

/-- A queue that starts within its capacity stays within it. -/
theorem length_le_of_run (hq : q.length ≤ capacity)
    (h : (machine β capacity).run q ops = some q') : q'.length ≤ capacity := by
  induction ops generalizing q with
  | nil =>
    obtain rfl : q = q' := by simpa using h
    exact hq
  | cons op ops ih =>
    obtain ⟨t, ht, hrest⟩ := Option.bind_eq_some_iff.mp h
    refine ih ?_ hrest
    cases op with
    | enq x =>
      obtain ⟨hlt, rfl⟩ : q.length < capacity ∧ q ++ [x] = t := by
        simpa [machine, step] using ht
      simp only [List.length_append, List.length_singleton]
      omega
    | deq x =>
      obtain ⟨-, rfl⟩ : q.head? = some x ∧ q.tail = t := by simpa [machine, step] using ht
      simp
      omega

end BoundedQueue
