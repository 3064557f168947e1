import GpuLibc.Uring.Flush

/-!
# Shutdown without a polling thread

The closing sequence of `main` in `io_uring_gpu_no_poll`: flush, process completions, flush,
process completions ("ensure all outstanding io_uring operations have completed"). A flush that
submits fewer than `QUEUE_DEPTH` entries does not wait, and one that submits them all waits for a
single completion, so the sequence waits for nothing that is outstanding when it starts.
-/

namespace GpuLibc

open Counter

variable {r : Ring} {d : QueueDepth} {s s' s₀ : State} {base : Word} {n : ℕ}

/-! ## The closing sequence -/

/-- Where the host thread stands; `n` is the number of rounds of flush and process after this
one. -/
inductive ClosingPc
  /-- About to call `io_uring_enter(ring_fd, QUEUE_DEPTH, 1, IORING_ENTER_GETEVENTS)`. -/
  | flush (n : ℕ)
  /-- In `io_uring_enter`, with `QUEUE_DEPTH` entries submitted. -/
  | wait (n : ℕ)
  /-- About to load `*cring_tail` in `uring_process_completions`. -/
  | process (n : ℕ)
  /-- About to store the tail it has loaded into `*cring_head`. -/
  | store (n tail : ℕ)
  | done
deriving DecidableEq

/-- The host thread in its closing sequence. -/
structure Closing where
  state : State
  pc : ClosingPc

/-- Who moves next: the host thread, or the kernel with a request it has taken. -/
inductive ClosingLabel
  | main
  | write (j : ℕ)
  | complete (j : ℕ)

/-- What follows a round when `n` rounds are left. -/
def ClosingPc.next : ℕ → ClosingPc
  | 0 => .done
  | n + 1 => .flush n

/-- The step function of the closing sequence, in which `io_uring_enter` does not fail. -/
def Closing.step (d : QueueDepth) (r : Ring) (c : Closing) : ClosingLabel → Option Closing
  | .main =>
    match c.pc with
    | .flush n =>
      -- a call that takes fewer entries than it was asked to submit does not wait
      (c.state.enter r d.val).map fun s =>
        { state := s, pc := if d.val ≤ c.state.untaken then .wait n else .process n }
    | .wait n =>
      -- `min_complete` is 1
      if c.state.reaped < c.state.posted.length then some { c with pc := .process n } else none
    | .process n => some { c with pc := .store n c.state.posted.length }
    | .store n tail => some { state := { c.state with reaped := tail }, pc := .next n }
    | .done => none
  | .write j => (c.state.write j).map fun s => { c with state := s }
  | .complete j => (c.state.complete j).map fun s => { c with state := s }

/-- The closing sequence as a machine: two rounds of flush and process. -/
def shutdown (d : QueueDepth) (r : Ring) : Machine Closing ClosingLabel where
  init c := c.pc = .flush 1
  step c a := c.step d r a

/-- No entry is untaken, no taken request is uncompleted, and no completion is unreaped. -/
structure FullyDrained (s : State) : Prop where
  flushed : s.Flushed
  completed : ∀ q ∈ s.reqs, q.completed = true
  reaped : s.reaped = s.posted.length

/-- Whatever the schedule of the completions, the closing sequence started in `s` drains the
ring. -/
def ShutdownDrains (d : QueueDepth) (r : Ring) (s : State) : Prop :=
  ∀ (c : Closing) (as : List ClosingLabel),
    (shutdown d r).Runs (fun _ _ => True) ⟨s, .flush 1⟩ as c → c.pc = .done →
      FullyDrained c.state

/-- Some entry is untaken or some request taken is uncompleted. -/
def State.Pending (s : State) : Prop := 0 < s.untaken ∨ ∃ q ∈ s.reqs, q.completed = false

/-! ## Nothing pending at the start -/

/-- On an empty ring a flush takes nothing and does not wait. -/
theorem untaken_of_flushed (h : s.Flushed) : s.untaken = 0 := by
  rw [State.untaken, h.1, BitVec.sub_self, BitVec.toNat_zero]

theorem enter_of_flushed (h : s.Flushed) (r : Ring) (n : ℕ) : s.enter r n = some s := by
  rw [State.enter, untaken_of_flushed h, Nat.min_zero]
  rfl

/-- What holds along the closing sequence when nothing is pending. -/
structure SettledInv (c : Closing) : Prop where
  flushed : c.state.Flushed
  completed : ∀ q ∈ c.state.reqs, q.completed = true
  store : ∀ n tail, c.pc = .store n tail → tail = c.state.posted.length
  done : c.pc = .done → c.state.reaped = c.state.posted.length

namespace SettledInv

variable {c c' : Closing}

theorem main (h : SettledInv c) (hs : (shutdown d r).step c .main = some c') :
    SettledInv c' := by
  change c.step d r .main = some c' at hs
  cases hpc : c.pc <;> simp only [Closing.step, hpc] at hs
  case flush n =>
    rw [enter_of_flushed h.flushed, Option.map_some, Option.some.injEq] at hs
    have hpos := d.pos
    -- nothing is taken, so the flush does not wait
    rw [untaken_of_flushed h.flushed, if_neg (by omega)] at hs
    subst hs
    exact ⟨h.flushed, h.completed, by simp, by simp⟩
  case wait n =>
    split at hs
    next =>
      cases hs
      exact ⟨h.flushed, h.completed, by simp, by simp⟩
    next => cases hs
  case process n =>
    cases hs
    refine ⟨h.flushed, h.completed, ?_, by simp⟩
    intro m tail heq
    exact (ClosingPc.store.inj heq).2.symm
  case store n tail =>
    cases hs
    -- the tail stored is still the number of completions posted
    have htail := h.store n tail hpc
    refine ⟨h.flushed, h.completed, ?_, fun _ => htail⟩
    cases n <;> simp [ClosingPc.next]
  case done => cases hs

/-- A request that has completed may not complete again, and a write leaves it completed. -/
theorem step {a : ClosingLabel} (h : SettledInv c) (hs : (shutdown d r).step c a = some c') :
    SettledInv c' := by
  cases a with
  | main => exact h.main hs
  | write j =>
    obtain ⟨s, hwrite, rfl⟩ := Option.map_eq_some_iff.mp hs
    obtain ⟨q, hq, -, rfl⟩ := step_write (v := .ioUringGpuNoPoll) (r := r) hwrite
    refine ⟨⟨h.flushed.1, ?_⟩, ?_, h.store, h.done⟩
    · rw [List.length_set]
      exact h.flushed.2
    · intro q' hq'
      rcases List.mem_or_eq_of_mem_set hq' with hmem | rfl
      · exact h.completed q' hmem
      · exact h.completed q (List.mem_of_getElem? hq)
  | complete j =>
    obtain ⟨s, hcomplete, rfl⟩ := Option.map_eq_some_iff.mp hs
    obtain ⟨q, _, hq, -, hnot, -⟩ := step_complete (v := .ioUringGpuNoPoll) (r := r) hcomplete
    -- all requests have completed already
    simp [h.completed q (List.mem_of_getElem? hq)] at hnot

end SettledInv

/-- With nothing pending at the start, the sequence reaps the completions that are left. -/
theorem shutdownDrains_of_settled (hflushed : s.Flushed)
    (hcompleted : ∀ q ∈ s.reqs, q.completed = true) : ShutdownDrains d r s := by
  intro c as hrun hdone
  have hinv : SettledInv c :=
    hrun.invariant (fun _ => ⟨hflushed, hcompleted, by simp, by simp⟩)
      fun _ _ _ hinv _ hs => hinv.step hs
  exact ⟨hinv.flushed, hinv.completed, hinv.done hdone⟩

/-! ## Something pending at the start -/

/-- What the bad schedule keeps up: something is pending at the start of each round. -/
structure PendingInv (s : State) : Prop where
  pending : s.Pending
  poller : s.poller = .polling
  reaped_le : s.reaped ≤ s.posted.length

/-- The kernel performs the write of a request it has taken and posts its completion. -/
theorem exists_completed {pc : ClosingPc} {l l' : List Request} {q : Request}
    (hreqs : s.reqs = l ++ q :: l') (htext : q.text = none) (hnot : q.completed = false) :
    ∃ s', (shutdown d r).Reaches (fun _ _ => True) ⟨s, pc⟩ ⟨s', pc⟩ ∧
      (∃ q', s'.reqs = l ++ q' :: l') ∧ s'.posted.length = s.posted.length + 1 ∧
      s'.reaped = s.reaped ∧ s'.poller = s.poller := by
  have hget (q : Request) : (l ++ q :: l')[l.length]? = some q := by
    rw [List.getElem?_append_right le_rfl, Nat.sub_self, List.getElem?_cons_zero]
  have hset (q q' : Request) : (l ++ q :: l').set l.length q' = l ++ q' :: l' := by
    rw [List.set_append_right _ _ le_rfl, Nat.sub_self, List.set_cons_zero]
  set text := ByteMemory.read s.shared.mem q.sqe.addr q.sqe.len with htext'
  set t : State := { s with reqs := l ++ { q with text := some text } :: l' }
  set u : State := { t with
    reqs := l ++ { q with text := some text, completed := true } :: l'
    posted := s.posted ++ [{ userData := q.sqe.userData, res := text.length }] }
  have hwrite : (shutdown d r).step ⟨s, pc⟩ (.write l.length) = some ⟨t, pc⟩ := by
    show (s.write l.length).map _ = _
    rw [State.write, hreqs, hget, Option.bind_some, if_pos htext, hset, ← htext', Option.map_some]
  have hcomplete : (shutdown d r).step ⟨t, pc⟩ (.complete l.length) = some ⟨u, pc⟩ := by
    show (t.complete l.length).map _ = _
    rw [State.complete, hget, Option.bind_some, Option.bind_some, if_pos hnot, hset,
      Option.map_some]
  -- two steps of the kernel, the host thread stays where it is
  refine ⟨u, (Machine.Reaches.single trivial hwrite).trans (.single trivial hcomplete),
    ⟨_, rfl⟩, ?_, rfl, rfl⟩
  exact List.length_append

/-- Reaping what has been posted leaves what is pending. -/
theorem exists_processed (h : PendingInv s) (n : ℕ) :
    ∃ s', (shutdown d r).Reaches (fun _ _ => True) ⟨s, .process n⟩ ⟨s', .next n⟩ ∧
      PendingInv s' := by
  have hload : (shutdown d r).step ⟨s, .process n⟩ .main =
      some ⟨s, .store n s.posted.length⟩ := rfl
  have hstore : (shutdown d r).step ⟨s, .store n s.posted.length⟩ .main =
      some ⟨{ s with reaped := s.posted.length }, .next n⟩ := rfl
  refine ⟨_, (Machine.Reaches.single trivial hload).trans (.single trivial hstore), ?_⟩
  exact ⟨h.pending, h.poller, le_rfl⟩

/-- Some schedule of a round leaves something pending: no completion is posted while the host
thread does not wait, and a single one when it does. -/
theorem exists_round (hd : 2 ≤ d.val) (h : PendingInv s) (n : ℕ) :
    ∃ s', (shutdown d r).Reaches (fun _ _ => True) ⟨s, .flush n⟩ ⟨s', .next n⟩ ∧
      PendingInv s' := by
  obtain ⟨l, heq, hlen, hnew⟩ := enter_eq h.poller r d.val
  set t : State := { s with
    shared := { s.shared with sringHead := after s.shared.sringHead (min d.val s.untaken) }
    reqs := s.reqs ++ l } with ht
  have hflush : (shutdown d r).step ⟨s, .flush n⟩ .main =
      some ⟨t, if d.val ≤ s.untaken then .wait n else .process n⟩ := by
    show (s.enter r d.val).map _ = _
    rw [heq, Option.map_some]
  by_cases hle : d.val ≤ s.untaken
  · rw [if_pos hle] at hflush
    -- at least two requests were taken, and the second one will not complete
    obtain ⟨q₁, q₂, l', rfl⟩ : ∃ q₁ q₂ l', l = q₁ :: q₂ :: l' := by
      match l, hlen with
      | [], hlen | [_], hlen => simp at hlen; omega
      | q₁ :: q₂ :: l', _ => exact ⟨q₁, q₂, l', rfl⟩
    obtain ⟨htext, hnot⟩ := hnew q₁ (by simp)
    obtain ⟨u, hreach, ⟨q', hreqs⟩, hposted, hreaped, hpoller⟩ :=
      exists_completed (d := d) (r := r) (s := t) rfl htext hnot
    -- the completion of the first one wakes the host thread
    have hwake : (shutdown d r).step ⟨u, .wait n⟩ .main = some ⟨u, .process n⟩ := by
      refine if_pos ?_
      show u.reaped < u.posted.length
      have hreaped_le := h.reaped_le
      rw [hposted, hreaped]
      exact Nat.lt_succ_of_le hreaped_le
    have hpending : PendingInv u := by
      refine ⟨.inr ⟨q₂, ?_, (hnew q₂ (by simp)).2⟩, hpoller.trans h.poller, ?_⟩
      · rw [hreqs]
        simp
      · have hreaped_le := h.reaped_le
        rw [hposted, hreaped]
        exact Nat.le_succ_of_le hreaped_le
    obtain ⟨s', hprocess, hinv⟩ := exists_processed (d := d) (r := r) hpending n
    exact ⟨s', (((Machine.Reaches.single trivial hflush).trans hreach).trans
      (.single trivial hwake)).trans hprocess, hinv⟩
  · rw [if_neg hle] at hflush
    -- the flush does not wait, and nothing completes
    have hpending : PendingInv t := by
      refine ⟨.inr ?_, h.poller, h.reaped_le⟩
      rcases h.pending with hpos | ⟨q, hq, hnot⟩
      · -- what was untaken has been taken and is uncompleted
        obtain ⟨q, l', rfl⟩ : ∃ q l', l = q :: l' :=
          List.exists_cons_of_length_pos (by have := d.pos; omega)
        exact ⟨q, by simp [ht], (hnew q (by simp)).2⟩
      · exact ⟨q, List.mem_append_left _ hq, hnot⟩
    obtain ⟨s', hprocess, hinv⟩ := exists_processed (d := d) (r := r) hpending n
    exact ⟨s', (Machine.Reaches.single trivial hflush).trans hprocess, hinv⟩

/-- With a depth of at least two, what is pending at the start of the sequence may be pending at
its end. -/
theorem not_shutdownDrains_of_pending (hd : 2 ≤ d.val) (h : PendingInv s) :
    ¬ ShutdownDrains d r s := by
  intro hdrains
  -- two rounds under the bad schedule
  obtain ⟨t, hfirst, hinv⟩ := exists_round (r := r) hd h 1
  obtain ⟨u, hsecond, hinv⟩ := exists_round (r := r) hd hinv 0
  have hstart : (shutdown d r).Runs (fun _ _ => True) ⟨s, .flush 1⟩ [] ⟨s, .flush 1⟩ := .start rfl
  obtain ⟨as, hrun⟩ := hstart.exists_of_reaches (hfirst.trans hsecond)
  have hdrained := hdrains ⟨u, .done⟩ as hrun rfl
  rcases hinv.pending with hpos | ⟨q, hq, hnot⟩
  · rw [untaken_of_flushed hdrained.flushed] at hpos
    exact absurd hpos (by decide)
  · simp [hdrained.completed q hq] at hnot

/-- From every state of every session within the ring size, the closing sequence drains the ring
under every schedule of completions if and only if, when it starts, no entry is untaken and every
taken request has completed. -/
theorem shutdownDrains_iff {r : Ring} {s₀ s : State} {as : List SessionStep}
    (h : (session queueDepth r).Runs (untakenWithin r) s₀ as s) :
    ShutdownDrains queueDepth r s ↔
      s.untaken = 0 ∧ ∀ q ∈ s.reqs, q.completed = true := by
  have hinv := session_inv h
  constructor
  · intro hdrains
    by_contra hne
    refine not_shutdownDrains_of_pending (by decide) ⟨?_, hinv.poller, hinv.reaped_le⟩ hdrains
    by_cases hzero : s.untaken = 0
    · right
      by_contra hall
      refine hne ⟨hzero, fun q hq => ?_⟩
      by_contra hnot
      exact hall ⟨q, hq, by simpa using hnot⟩
    · exact .inl (Nat.pos_of_ne_zero hzero)
  · rintro ⟨hzero, hcompleted⟩
    refine shutdownDrains_of_settled (hinv.flushed_iff.mpr ?_) hcompleted
    -- no distance between head and tail
    have htail : after s.shared.sringHead s.untaken = s.shared.sringTail := after_toNat_sub ..
    rw [hzero, after_zero] at htail
    exact htail

/-- A message is published, flushed, written and completed before the sequence starts. -/
theorem shutdownDrains_settled :
    ∃ s, (session queueDepth demoRing).Runs (untakenWithin demoRing) .afterSetup
        [.perror helloA, .flush, .write 0, .complete 0] s ∧
      ShutdownDrains queueDepth demoRing s ∧ s.posted.length = 1 := by
  have hrun : (session queueDepth demoRing).Runs (untakenWithin demoRing) .afterSetup
      [.perror helloA, .flush, .write 0, .complete 0] _ :=
    .of_runUnder State.initial_afterSetup (by decide +kernel)
  exact ⟨_, hrun, (shutdownDrains_iff hrun).mpr (by decide +kernel), by decide +kernel⟩

/-- One published message is enough for a schedule that leaves its request uncompleted. -/
theorem not_shutdownDrains : ¬ ∀ (r : Ring) (s₀ s : State) (as : List SessionStep),
    (session queueDepth r).Runs (untakenWithin r) s₀ as s → ShutdownDrains queueDepth r s := by
  intro h
  obtain ⟨s, as, hrun, huntaken⟩ := exists_untaken (d := queueDepth) (r := demoRing) (n := 1)
    State.initial_afterSetup (by decide)
  have hinv := session_inv hrun
  -- the message is untaken when the sequence starts
  have hpending : s.Pending := .inl (by omega)
  exact not_shutdownDrains_of_pending (by decide) ⟨hpending, hinv.poller, hinv.reaped_le⟩
    (h _ _ _ _ hrun)

end GpuLibc
