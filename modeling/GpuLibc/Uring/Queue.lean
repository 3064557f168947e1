import GpuLibc.Lib.BoundedQueue
import GpuLibc.Uring.Sequential

/-!
# The ring as a bounded queue

For calls that do not overlap, the ring is a FIFO queue of at most `entries` messages. A store of
the tail appends the message of its call, and a take removes the message at the front. The queue
between the two is the list of messages from the head to the tail, both counted without wrap.

* `queueEvents`: what a step does to the queue.
* `refinesQueue_of_sequential`: the events of a run are a run of the bounded queue.
-/

namespace GpuLibc

open BoundedQueue

variable {v : Variant} {r : Ring} {base : Word} {s₀ s s' : State} {as : List Label} {p : ℕ}

/-- What the kernel reads of an entry: the text in its window, its length and its cookie. -/
abbrev Seen := List Byte × ℕ × ℕ

/-- What the kernel sees in a request when it takes it. -/
def Request.seen (q : Request) : Seen := (q.window.take q.sqe.len, q.sqe.len, q.sqe.userData)

/-- What a call submits. -/
def Call.submitted (r : Ring) (c : Call) : Seen :=
  (c.msg.bytes, c.msg.bytes.length, (r.idx c.tail).toNat)

/-- The enqueue or dequeue that a step performs on the queue of messages. -/
def queueEvents (r : Ring) (s : State) : Label → List (Op Seen)
  | .call i =>
    if s.publishes i then (s.calls[i]?.map fun c => Op.enq (c.submitted r)).toList else []
  | .take => [.deq (s.nextRequest r).seen]
  | _ => []

/-- The messages from position `s.reqs.length` to position `p`. -/
def State.queued (r : Ring) (s : State) (p : ℕ) : List Seen :=
  ((s.calls.map (Call.submitted r)).take p).drop s.reqs.length

/-! ## Messages and entries -/

/-- A complete entry shows the submitted message. -/
theorem Request.seen_eq {q : Request} {c : Call} (h : q.entry = c.entry r) :
    q.seen = c.submitted r := by
  rw [seen, sqe_eq h, window_eq h]
  show (c.msg.window.take c.msg.bytes.length, _, _) = _
  rw [Message.take_window]
  rfl

/-- The kernel has seen the messages of the first calls, in order. -/
theorem InOrder.Inv.seen_eq (h : InOrder.Inv r base s p) :
    s.reqs.map Request.seen = (s.calls.map (Call.submitted r)).take s.reqs.length := by
  refine List.ext_getElem? fun j => ?_
  rw [List.getElem?_map, List.getElem?_take, List.getElem?_map]
  split
  next hlt =>
    have hq : s.reqs[j]? = some s.reqs[j] := List.getElem?_eq_getElem hlt
    obtain ⟨c, hc, hentry, -⟩ := h.exists_call hq
    rw [hq, hc, Option.map_some, Option.map_some, Request.seen_eq hentry]
  next hge => rw [List.getElem?_eq_none (by omega), Option.map_none]

theorem InOrder.Inv.length_queued (h : InOrder.Inv r base s p) :
    (s.queued r p).length = p - s.reqs.length := by
  rw [State.queued, List.length_drop, List.length_take, List.length_map,
    Nat.min_eq_left h.le_claimed]

/-! ## The simulation -/

/-- The ring of a state shows the queue `q`. -/
def ShowsQueue (r : Ring) (base : Word) (s : State) (q : List Seen) : Prop :=
  ∃ p, InOrder.Inv r base s p ∧ q = s.queued r p

/-- A store of the tail in order appends the message of its call. -/
theorem queued_storeTail (h : InOrder.Inv r base s p) {c : Call} (hc : s.calls[p]? = some c) :
    s.queued r (p + 1) = s.queued r p ++ [c.submitted r] := by
  rw [State.queued, State.queued, List.take_add_one, List.getElem?_map, hc, Option.map_some,
    Option.toList_some, List.drop_append_of_le_length]
  rw [List.length_take, List.length_map, Nat.min_eq_left h.le_claimed]
  exact h.taken_le

/-- The front of a queue that is not empty is the message at the head. -/
theorem queued_eq_cons (h : InOrder.Inv r base s p) (hlt : s.reqs.length < p) :
    s.queued r p =
      (s.nextRequest r).seen :: ((s.calls.map (Call.submitted r)).take p).drop
        (s.reqs.length + 1) := by
  have hle := h.le_claimed
  have hc : s.calls[s.reqs.length]? = some s.calls[s.reqs.length] :=
    List.getElem?_eq_getElem (by omega)
  have hlen : s.reqs.length < ((s.calls.map (Call.submitted r)).take p).length := by
    simp only [List.length_take, List.length_map]
    omega
  rw [Request.seen_eq (h.nextRequest_entry hlt hc), State.queued, List.drop_eq_getElem_cons hlen,
    List.getElem_take, List.getElem_map]

/-- Every step of the ring is matched by the queue. -/
theorem ShowsQueue.step {q : List Seen} {a : Label} (h : ShowsQueue r base s q)
    (hg : InOrder s a) (hs : (system .gpuSvmDemo r).step s a = some s') :
    ∃ q', (machine Seen r.entries).run q (queueEvents r s a) = some q' ∧
      ShowsQueue r base s' q' := by
  obtain ⟨p, hinv, rfl⟩ := h
  cases a with
  | claim msg =>
    -- a claimed ticket is not in the queue yet
    refine ⟨_, rfl, p, hinv.claim hg.1 hs, ?_⟩
    obtain rfl := step_claim hs
    have hle := hinv.le_claimed
    simp only [State.queued, List.map_append]
    rw [List.take_append_of_le_length (by simpa using hle)]
  | call i =>
    obtain ⟨c, sh', c', hc, hstep, rfl⟩ := step_call hs
    have hkeep : (s.calls.set i c').map (Call.submitted r) = s.calls.map (Call.submitted r) := by
      obtain ⟨hmsg, htail⟩ := Call.step_args hstep
      exact map_set_eq hc (by rw [Call.submitted, Call.submitted, hmsg, htail])
    by_cases hphase : c.phase = .storeTail
    · have hpub : s.publishes i := by simp [State.publishes, hc, hphase]
      obtain rfl := hinv.eq_of_publishes hc hphase (hg.2 hpub)
      -- the call has found room, so the queue is not full
      have hroom := hinv.room i c hc (by simp [hphase])
      have htaken := hinv.taken_le
      have hlen : (s.queued r i).length < r.entries := by
        rw [hinv.length_queued]
        omega
      refine ⟨s.queued r (i + 1), ?_, i + 1, hinv.call_of_storeTail hc hstep hphase, ?_⟩
      · rw [queued_storeTail hinv hc, queueEvents, if_pos hpub, hc]
        simp [Machine.run, step_enq hlen]
      · simp only [State.queued, hkeep]
    · -- filling the slot does not show in the queue
      have hpub : ¬ s.publishes i := by simp [State.publishes, hc, hphase]
      refine ⟨s.queued r p, ?_, p, hinv.call_of_ne hc hstep hphase, ?_⟩
      · rw [queueEvents, if_neg hpub, Machine.run_nil]
      · simp only [State.queued, hkeep]
  | take =>
    -- the kernel reads the entry of the message at the front
    have hlt := hinv.lt_of_step_take hs
    refine ⟨_, ?_, p, hinv.take hs, rfl⟩
    obtain ⟨-, -, rfl⟩ := step_take hs
    rw [queued_eq_cons hinv hlt]
    simp only [queueEvents, Machine.run, step_deq, Option.bind_some, State.queued,
      List.length_append, List.length_singleton]
  | write j =>
    refine ⟨_, rfl, p, hinv.write hs, ?_⟩
    obtain ⟨q, -, -, rfl⟩ := step_write hs
    rw [State.queued, State.queued, List.length_set]
  | complete j =>
    refine ⟨_, rfl, p, hinv.complete hs, ?_⟩
    obtain ⟨q, _, -, -, -, rfl⟩ := step_complete hs
    rw [State.queued, State.queued, List.length_set]
  | poller a =>
    refine ⟨_, rfl, p, hinv.poller hs, ?_⟩
    rw [step_poller hs]
    rfl

/-! ## Refinement -/

/-- A run with the labels `as` from `s₀` to `s` agrees with the bounded queue. -/
structure RefinesQueue (r : Ring) (s₀ : State) (as : List Label) (s : State) : Prop where
  /-- The stores of the tail and the takes are a run of the queue. -/
  run : ∃ q, (machine Seen r.entries).run []
    ((system .gpuSvmDemo r).trace (queueEvents r) s₀ as) = some q ∧
      q.length + s.reqs.length = s.published
  /-- The queue has accepted the messages of the published calls, in order. -/
  accepted : enqueued ((system .gpuSvmDemo r).trace (queueEvents r) s₀ as) =
    (s.calls.map (Call.submitted r)).take s.published
  /-- The queue has handed out what the kernel has seen. -/
  handedOut : dequeued ((system .gpuSvmDemo r).trace (queueEvents r) s₀ as) =
    s.reqs.map Request.seen
  seen_in_order : s.reqs.map Request.seen <+: s.calls.map (Call.submitted r)
  taken_le : s.reqs.length ≤ s.published
  published_le : s.published ≤ s.reqs.length + r.entries
  /-- The kernel finds the ring empty exactly when it has taken every published entry. -/
  drained : s.shared.sringHead = s.shared.sringTail ↔ s.reqs.length = s.published
  /-- The loop test of a waiting call fails exactly while the queue is full. -/
  waits : ∀ (i : ℕ) (c : Call), s.calls[i]? = some c → c.phase = .waitRoom →
    (hasRoom r s.shared c ↔ s.published < s.reqs.length + r.entries)

/-- What the queue hands out along a run is what the kernel has seen. -/
theorem dequeued_trace {P : State → Label → Prop} (h : (system v r).Runs P s₀ as s) :
    dequeued ((system v r).trace (queueEvents r) s₀ as) = s.reqs.map Request.seen := by
  induction h with
  | start h => simp [Machine.trace, dequeued, h.reqs]
  | @step as s s' a hr _ hs ih =>
    rw [hr.trace_concat, dequeued_append, ih]
    -- only a take adds a request, and none changes what was seen in one
    cases a with
    | claim msg =>
      obtain rfl := step_claim hs
      simp [queueEvents, dequeued]
    | call i =>
      obtain ⟨c, sh', c', hc, -, rfl⟩ := step_call hs
      rw [queueEvents, hc]
      split <;> simp [dequeued]
    | take =>
      obtain ⟨-, -, rfl⟩ := step_take hs
      simp [queueEvents, dequeued]
    | write j =>
      obtain ⟨q, hq, -, rfl⟩ := step_write hs
      rw [map_set_eq hq (by rfl)]
      simp [queueEvents, dequeued]
    | complete j =>
      obtain ⟨q, _, hq, -, -, rfl⟩ := step_complete hs
      rw [map_set_eq hq (by rfl)]
      simp [queueEvents, dequeued]
    | poller a =>
      rw [step_poller hs]
      simp [queueEvents, dequeued]

/-- For calls that do not overlap, the ring refines a bounded FIFO queue. -/
theorem refinesQueue_of_sequential (h : (system .gpuSvmDemo r).Runs sequential s₀ as s) :
    RefinesQueue r s₀ as s := by
  obtain ⟨hothers, p, hinv⟩ := sequential_inv h
  have hstart : (system .gpuSvmDemo r).init s₀ → ShowsQueue r s₀.shared.sringTail s₀ [] := by
    intro hinit
    exact ⟨0, InOrder.Inv.of_init hinit, by simp [State.queued]⟩
  obtain ⟨q, hrun, p', hinv', rfl⟩ :=
    (runs_inOrder_of_sequential h).simulates (R := ShowsQueue r s₀.shared.sringTail) hstart
      fun _ _ _ _ hR hg hs => hR.step hg hs
  obtain rfl : p' = p := hinv'.published_eq.symm.trans hinv.published_eq
  have htaken := hinv.taken_le
  have hdeq := dequeued_trace h
  have henq : enqueued ((system .gpuSvmDemo r).trace (queueEvents r) s₀ as) =
      (s.calls.map (Call.submitted r)).take s.published := by
    -- accepted is handed out followed by queued, and the two parts meet at the head
    have hcons := run_conservation hrun
    rw [List.nil_append, hdeq, hinv.seen_eq] at hcons
    rw [hcons, hinv.published_eq, State.queued]
    calc (s.calls.map (Call.submitted r)).take s.reqs.length ++
          ((s.calls.map (Call.submitted r)).take p').drop s.reqs.length
        = ((s.calls.map (Call.submitted r)).take p').take s.reqs.length ++
          ((s.calls.map (Call.submitted r)).take p').drop s.reqs.length := by
          rw [List.take_take, Nat.min_eq_left htaken]
      _ = (s.calls.map (Call.submitted r)).take p' := List.take_append_drop _ _
  refine
    { run := ⟨_, hrun, ?length⟩, accepted := henq, handedOut := hdeq,
      seen_in_order := ?seen_in_order, taken_le := ?taken_le, published_le := ?published_le,
      drained := ?drained, waits := ?waits }
  case length =>
    rw [hinv.length_queued, hinv.published_eq]
    omega
  case seen_in_order =>
    have hseen := dequeued_isPrefix hrun
    rw [hdeq, henq] at hseen
    exact hseen.trans (List.take_prefix _ _)
  case taken_le => rwa [hinv.published_eq]
  case published_le =>
    have hlen := length_le_of_run (Nat.zero_le _) hrun
    rw [hinv.length_queued] at hlen
    rw [hinv.published_eq]
    omega
  case drained =>
    rw [hinv.published_eq]
    exact hinv.head_eq_tail_iff
  case waits =>
    intro i c hc hphase
    -- the waiting call is the next one to publish, so its distance is the length of the queue
    obtain rfl := eq_of_waitRoom hothers hinv hc hphase
    rw [hinv.published_eq]
    exact hinv.hasRoom_iff hc htaken

/-- Two calls one after the other, the kernel taking the first entry in the middle of the second
call. -/
def oneByOne : List Label :=
  [.claim helloA] ++ callSteps 0 ++ [.claim helloB] ++ [.call 1, .call 1, .take] ++
    List.replicate 5 (.call 1)

theorem refinesQueue_oneByOne :
    ∃ s, (system .gpuSvmDemo demoRing).Runs sequential .afterSetup oneByOne s ∧
      RefinesQueue demoRing .afterSetup oneByOne s ∧ s.reqs.length = 1 ∧ s.published = 2 := by
  have hrun : (system .gpuSvmDemo demoRing).Runs sequential .afterSetup oneByOne _ :=
    .of_runUnder State.initial_afterSetup (by decide +kernel)
  exact ⟨_, hrun, refinesQueue_of_sequential hrun, by decide +kernel, by decide +kernel⟩

end GpuLibc
