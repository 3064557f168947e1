import GpuLibc.Uring.MessagePool
import GpuLibc.Uring.SingleCall

/-!
# Flushing

`io_uring_gpu_no_poll` has no polling thread: published entries stay in the ring until
`uring_flush` calls `io_uring_enter(ring_fd, QUEUE_DEPTH, 1, IORING_ENTER_GETEVENTS)`, which takes
at most `QUEUE_DEPTH` of them. The ring has room for the depth rounded up to a power of two, so a
flush empties every ring exactly when nothing was rounded.
-/

namespace GpuLibc

open Counter

variable {r : Ring} {s s' s₀ : State} {base : Word} {n : ℕ}

/-! ## A session of one host thread -/

/-- What happens one after the other in a session: the operations of the host thread, and the
writes and completions of requests taken. -/
inductive SessionStep
  | perror (msg : Message)
  /-- A `uring_flush` whose `io_uring_enter` returns without error. -/
  | flush
  /-- A `uring_flush` whose `io_uring_enter` fails: the error is printed, and nothing is taken. -/
  | flushError
  /-- `uring_process_completions`. -/
  | process
  | write (j : ℕ)
  | complete (j : ℕ)

namespace State

/-- The number of entries between the head and the tail. -/
def untaken (s : State) : ℕ := (s.shared.sringTail - s.shared.sringHead).toNat

/-- `io_uring_enter(fd, n, ..)` on a ring without polling thread takes `min(n, tail - head)`
entries. -/
def enter (r : Ring) (n : ℕ) (s : State) : Option State :=
  (system .ioUringGpuNoPoll r).run s (List.replicate (min n s.untaken) .take)

/-- The step function of a session with `QUEUE_DEPTH = d`. -/
def sessionStep (d : QueueDepth) (r : Ring) (s : State) : SessionStep → Option State
  | .perror msg =>
    (system .ioUringGpuNoPoll r).run s (.claim msg :: List.replicate 7 (.call s.calls.length))
  | .flush => s.enter r d.val
  | .flushError => some s
  | .process => some { s with reaped := s.posted.length }
  | .write j => s.write j
  | .complete j => s.complete j

/-- The ring is empty, and the entries of all calls have been taken. -/
def Flushed (s : State) : Prop :=
  s.shared.sringHead = s.shared.sringTail ∧ s.reqs.length = s.calls.length

instance (s : State) : Decidable s.Flushed := inferInstanceAs (Decidable (_ ∧ _))

end State

/-- A session of `io_uring_gpu_no_poll` on the ring `r`. -/
def session (d : QueueDepth) (r : Ring) : Machine State SessionStep where
  init := Initial
  step s a := s.sessionStep d r a

/-- A call is made only while the number of untaken entries stays within the ring size. -/
def untakenWithin (r : Ring) (s : State) : SessionStep → Prop
  | .perror _ => s.untaken < r.entries
  | _ => True

instance (r : Ring) (s : State) : ∀ a, Decidable (untakenWithin r s a)
  | .perror _ => inferInstanceAs (Decidable (s.untaken < r.entries))
  | .flush | .flushError | .process | .write _ | .complete _ => inferInstanceAs (Decidable True)

/-- In all sessions from `s₀` that keep within the ring size, a flush that returns without error
leaves no entry behind. -/
def FlushDrains (d : QueueDepth) (r : Ring) (s₀ : State) : Prop :=
  ∀ (s s' : State) (as : List SessionStep), (session d r).Runs (untakenWithin r) s₀ as s →
    (session d r).step s .flush = some s' → s'.Flushed

/-! ## What one operation does -/

theorem sessionStep_perror (d : QueueDepth) (r : Ring) (s : State) (msg : Message) :
    (session d r).step s (.perror msg) = some { s with
      shared := (s.shared.perror r msg).clearFlags
      calls := s.calls ++ [{ msg, tail := s.shared.sqTailCache, phase := .returned }] } :=
  run_perror_noPoll r s msg

/-- Taking `k` of the entries in the ring. -/
theorem run_takes {k : ℕ} (hpoller : s.poller = .polling) (hk : k ≤ s.untaken) :
    ∃ l : List Request,
      (system .ioUringGpuNoPoll r).run s (List.replicate k .take) = some { s with
        shared := { s.shared with sringHead := after s.shared.sringHead k }
        reqs := s.reqs ++ l } ∧
      l.length = k ∧ ∀ q ∈ l, q.text = none ∧ q.completed = false := by
  -- on the number of entries taken, from the state behind the first take
  induction k generalizing s with
  | zero =>
    refine ⟨[], ?_, rfl, by simp⟩
    rw [after_zero, List.append_nil]
    rfl
  | succ k ih =>
    have hne : s.shared.sringHead ≠ s.shared.sringTail := by
      intro heq
      rw [State.untaken, heq, BitVec.sub_self] at hk
      simp at hk
    have htake : (system .ioUringGpuNoPoll r).step s .take = some { s with
        shared := { s.shared with sringHead := s.shared.sringHead + 1 }
        reqs := s.reqs ++ [s.nextRequest r] } := if_pos ⟨hpoller, hne⟩
    -- one entry less is left
    have hleft := toNat_sub_add_one hne
    rw [← State.untaken] at hleft
    obtain ⟨l, hrun, hlen, hnew⟩ := ih (s := { s with
        shared := { s.shared with sringHead := s.shared.sringHead + 1 }
        reqs := s.reqs ++ [s.nextRequest r] }) hpoller (by
          show k ≤ (s.shared.sringTail - (s.shared.sringHead + 1)).toNat
          omega)
    refine ⟨s.nextRequest r :: l, ?_, by rw [List.length_cons, hlen], ?_⟩
    · -- one increment and `k` more
      have hhead : after (s.shared.sringHead + 1) k = after s.shared.sringHead (k + 1) := by
        rw [← after_zero s.shared.sringHead, after_add_one, after_after, after_after]
        congr 1
        omega
      rw [List.replicate_succ, Machine.run, htake, Option.bind_some, hrun, hhead,
        List.append_assoc, List.singleton_append]
    · intro q hq
      rcases List.mem_cons.mp hq with rfl | hq
      · exact ⟨rfl, rfl⟩
      · exact hnew q hq

/-- What `io_uring_enter` takes. -/
theorem enter_eq (hpoller : s.poller = .polling) (r : Ring) (n : ℕ) :
    ∃ l : List Request,
      s.enter r n = some { s with
        shared := { s.shared with sringHead := after s.shared.sringHead (min n s.untaken) }
        reqs := s.reqs ++ l } ∧
      l.length = min n s.untaken ∧ ∀ q ∈ l, q.text = none ∧ q.completed = false :=
  run_takes hpoller (Nat.min_le_right n s.untaken)

/-- A flush empties the ring exactly when it finds no more entries than it submits. -/
theorem head_eq_tail_of_enter (s : State) (n : ℕ) :
    after s.shared.sringHead (min n s.untaken) = s.shared.sringTail ↔ s.untaken ≤ n := by
  have hlt : s.untaken < 2 ^ 32 := (s.shared.sringTail - s.shared.sringHead).isLt
  have htail : after s.shared.sringHead s.untaken = s.shared.sringTail := after_toNat_sub ..
  constructor
  · intro heq
    -- two positions behind the old head, less than `2 ^ 32` apart
    rw [← htail] at heq
    have hcount := after_injective_of_lt (Nat.min_le_right n s.untaken) (by omega) heq.symm
    omega
  · intro hle
    rw [Nat.min_eq_right hle, htail]

/-! ## What holds along a session -/

/-- A session that keeps within the ring size, after counters started at `base`. -/
structure SessionInv (r : Ring) (base : Word) (s : State) : Prop where
  cache : s.shared.sqTailCache = after base s.calls.length
  tail : s.shared.sringTail = after base s.calls.length
  head : s.shared.sringHead = after base s.reqs.length
  taken_le : s.reqs.length ≤ s.calls.length
  within : s.calls.length ≤ s.reqs.length + r.entries
  returned : ∀ c ∈ s.calls, c.phase = .returned
  poller : s.poller = .polling
  reaped_le : s.reaped ≤ s.posted.length

namespace SessionInv

theorem of_init (h : Initial s) : SessionInv r s.shared.sringTail s where
  cache := by rw [h.calls, h.cache]; exact (after_zero _).symm
  tail := by rw [h.calls]; exact (after_zero _).symm
  head := by rw [h.reqs, h.head]; exact (after_zero _).symm
  taken_le := by simp [h.reqs]
  within := by simp [h.calls]
  returned := by simp [h.calls]
  poller := h.poller
  reaped_le := by simp [h.reaped]

theorem untaken_eq (h : SessionInv r base s) :
    s.untaken = s.calls.length - s.reqs.length := by
  have hwithin := h.within
  have hentries := r.entries_le
  -- both counters are positions behind `base`
  rw [State.untaken, h.tail, h.head]
  exact toNat_after_sub h.taken_le (by omega)

theorem untaken_le (h : SessionInv r base s) : s.untaken ≤ r.entries := by
  have hwithin := h.within
  rw [h.untaken_eq]
  omega

/-- The ring is empty exactly when the entries of all calls have been taken. -/
theorem flushed_iff (h : SessionInv r base s) :
    s.Flushed ↔ s.shared.sringHead = s.shared.sringTail := by
  refine ⟨fun hflushed => hflushed.1, fun heq => ⟨heq, ?_⟩⟩
  have hzero : s.untaken = 0 := by rw [State.untaken, heq, BitVec.sub_self, BitVec.toNat_zero]
  have htaken := h.taken_le
  have huntaken := h.untaken_eq
  omega

/-- Steps that change no word, no call and not the number of requests. -/
theorem of_eq (h : SessionInv r base s) (hshared : s'.shared = s.shared)
    (hcalls : s'.calls = s.calls) (hreqs : s'.reqs.length = s.reqs.length)
    (hpoller : s'.poller = s.poller) (hreaped : s'.reaped ≤ s'.posted.length) :
    SessionInv r base s' := by
  refine ⟨?_, ?_, ?_, ?_, ?_, ?_, ?_, hreaped⟩ <;> simp only [hshared, hcalls, hreqs, hpoller]
  exacts [h.cache, h.tail, h.head, h.taken_le, h.within, h.returned, h.poller]

theorem perror (h : SessionInv r base s) {d : QueueDepth} {msg : Message}
    (hg : s.untaken < r.entries) (hs : (session d r).step s (.perror msg) = some s') :
    SessionInv r base s' := by
  rw [sessionStep_perror, Option.some.injEq] at hs
  obtain ⟨hcache, htail, hhead⟩ := Shared.clearFlags_words (s.shared.perror r msg)
  obtain ⟨hcache', htail', hhead'⟩ := Shared.perror_words r msg s.shared
  have huntaken := h.untaken_eq
  have htaken := h.taken_le
  subst hs
  refine { cache := ?cache, tail := ?tail, head := ?head, taken_le := ?taken_le,
           within := ?within, returned := ?returned, poller := h.poller,
           reaped_le := h.reaped_le }
  case cache => rw [hcache, hcache', h.cache, after_add_one, List.length_append]; rfl
  case tail => rw [htail, htail', h.cache, after_add_one, List.length_append]; rfl
  case head => rw [hhead, hhead', h.head]
  case taken_le => simp only [List.length_append, List.length_singleton]; omega
  case within => simp only [List.length_append, List.length_singleton]; omega
  case returned =>
    intro c hc
    -- the new call has returned as well
    rcases List.mem_append.mp hc with hc | hc
    · exact h.returned c hc
    · rw [List.mem_singleton.mp hc]

theorem enter (h : SessionInv r base s) (hs : s.enter r n = some s') : SessionInv r base s' := by
  obtain ⟨l, heq, hlen, -⟩ := enter_eq h.poller r n
  rw [heq, Option.some.injEq] at hs
  have huntaken := h.untaken_eq
  have htaken := h.taken_le
  have hwithin := h.within
  subst hs
  refine { cache := h.cache, tail := h.tail, head := ?head, taken_le := ?taken_le,
           within := ?within, returned := h.returned, poller := h.poller,
           reaped_le := h.reaped_le }
  case head => rw [h.head, after_after, List.length_append, hlen]
  case taken_le =>
    show (s.reqs ++ l).length ≤ s.calls.length
    rw [List.length_append, hlen]
    omega
  case within =>
    show s.calls.length ≤ (s.reqs ++ l).length + r.entries
    rw [List.length_append]
    omega

theorem step (h : SessionInv r base s) {d : QueueDepth} {a : SessionStep}
    (hg : untakenWithin r s a) (hs : (session d r).step s a = some s') :
    SessionInv r base s' := by
  cases a with
  | perror msg => exact h.perror hg hs
  | flush => exact h.enter hs
  | flushError =>
    obtain rfl : s = s' := Option.some.inj hs
    exact h
  | process =>
    obtain rfl := Option.some.inj hs
    exact h.of_eq rfl rfl rfl rfl le_rfl
  | write j =>
    obtain ⟨q, -, -, rfl⟩ := step_write (v := .ioUringGpuNoPoll) (r := r) hs
    exact h.of_eq rfl rfl (List.length_set ..) rfl h.reaped_le
  | complete j =>
    obtain ⟨q, _, -, -, -, rfl⟩ := step_complete (v := .ioUringGpuNoPoll) (r := r) hs
    refine h.of_eq rfl rfl (List.length_set ..) rfl ?_
    rw [List.length_append]
    exact h.reaped_le.trans (Nat.le_add_right _ _)

end SessionInv

theorem session_inv {d : QueueDepth} {as : List SessionStep}
    (h : (session d r).Runs (untakenWithin r) s₀ as s) :
    SessionInv r s₀.shared.sringTail s :=
  h.invariant .of_init fun _ _ _ hinv hg hs => hinv.step hg hs

/-- A single flush empties the ring exactly when at most `QUEUE_DEPTH` entries are untaken. -/
theorem flushed_iff_untaken_le {d : QueueDepth} (h : SessionInv r base s)
    (hs : (session d r).step s .flush = some s') : s'.Flushed ↔ s.untaken ≤ d.val := by
  rw [(h.enter hs).flushed_iff]
  obtain ⟨l, heq, -, -⟩ := enter_eq h.poller r d.val
  obtain rfl : _ = s' := Option.some.inj (heq.symm.trans hs)
  exact head_eq_tail_of_enter s d.val

/-- A session can fill the ring up to any level. -/
theorem exists_untaken {d : QueueDepth} (hinit : Initial s₀) (hn : n ≤ r.entries) :
    ∃ s as, (session d r).Runs (untakenWithin r) s₀ as s ∧ s.untaken = n := by
  induction n with
  | zero =>
    refine ⟨s₀, [], .start hinit, ?_⟩
    rw [State.untaken, hinit.head, BitVec.sub_self, BitVec.toNat_zero]
  | succ n ih =>
    obtain ⟨s, as, hrun, huntaken⟩ := ih (by omega)
    have hstep := sessionStep_perror d r s helloA
    have hnext := hrun.step (show untakenWithin r s (.perror helloA) by
      show s.untaken < r.entries; omega) hstep
    refine ⟨_, _, hnext, ?_⟩
    -- one call more than before
    have htaken := (session_inv hrun).taken_le
    have hold := (session_inv hrun).untaken_eq
    rw [(session_inv hnext).untaken_eq, List.length_append, List.length_singleton]
    show s.calls.length + 1 - s.reqs.length = n + 1
    omega

/-- On the ring of `setup_uring` and from any initial counters: a flush that returns without error
empties the ring if and only if it found at most `QUEUE_DEPTH` untaken entries, and all flushes of
all sessions within the ring size do if and only if the queue depth is a power of two. -/
theorem flushDrains_iff (d : QueueDepth) (msgPool cqEntries : ℕ)
    (h : 2 ^ Nat.clog 2 d.val ≤ cqEntries) (s₀ : State) (hinit : Initial s₀) :
    (∀ (s s' : State) (as : List SessionStep),
      (session d (setupUring d msgPool cqEntries h)).Runs
          (untakenWithin (setupUring d msgPool cqEntries h)) s₀ as s →
        (session d (setupUring d msgPool cqEntries h)).step s .flush = some s' →
          (s'.Flushed ↔ s.untaken ≤ d.val)) ∧
      (FlushDrains d (setupUring d msgPool cqEntries h) s₀ ↔ ∃ k, d.val = 2 ^ k) := by
  rw [← entries_setupUring_le_iff d msgPool cqEntries h]
  set r := setupUring d msgPool cqEntries h
  refine ⟨fun s s' as hrun hs => flushed_iff_untaken_le (session_inv hrun) hs, ?_, ?_⟩
  · intro hdrains
    -- fill the ring and flush
    obtain ⟨s, as, hrun, huntaken⟩ := exists_untaken (d := d) hinit (le_refl r.entries)
    obtain ⟨l, heq, -, -⟩ := enter_eq (session_inv hrun).poller r d.val
    have hflushed := hdrains s _ as hrun heq
    rwa [flushed_iff_untaken_le (session_inv hrun) heq, huntaken] at hflushed
  · intro hle s s' as hrun hs
    -- no session leaves more entries untaken than the ring holds
    rw [flushed_iff_untaken_le (session_inv hrun) hs]
    exact (session_inv hrun).untaken_le.trans hle

theorem flushDrains_sixteen :
    FlushDrains { val := 16, pos := by decide, le := by decide }
      (setupUring { val := 16, pos := by decide, le := by decide } 0x10000 32 (by decide))
      .afterSetup :=
  (flushDrains_iff _ _ _ _ _ State.initial_afterSetup).2.mpr ⟨4, rfl⟩

/-- With the depth of the repository, the flush after thirteen messages leaves one behind. -/
theorem not_flushDrains : ¬ ∀ (d : QueueDepth) (msgPool cqEntries : ℕ)
    (h : 2 ^ Nat.clog 2 d.val ≤ cqEntries) (s₀ : State), Initial s₀ →
      FlushDrains d (setupUring d msgPool cqEntries h) s₀ := by
  intro h
  obtain ⟨s, as, hrun, huntaken⟩ := exists_untaken (d := queueDepth) (r := demoRing)
    State.initial_afterSetup (show 13 ≤ demoRing.entries by decide)
  obtain ⟨l, heq, -, -⟩ := enter_eq (session_inv hrun).poller demoRing queueDepth.val
  have hflushed := h queueDepth 0x10000 32 (by decide) .afterSetup State.initial_afterSetup _ _ _
    hrun heq
  -- thirteen entries and a flush of twelve
  rw [flushed_iff_untaken_le (d := queueDepth) (session_inv hrun) heq, huntaken] at hflushed
  exact absurd hflushed (by decide)

end GpuLibc
