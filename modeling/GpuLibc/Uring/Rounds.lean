import GpuLibc.Uring.Sequential

/-!
# Rounds

A round is one call from its claim to its return, followed by the kernel taking its entry, writing
its text and posting its completion. From any initial state the system can go through any number
of rounds. The runs built from rounds show what can happen after arbitrarily many messages, in all
copies of the routine and from any value of the counters.

* `exists_call`: from a state at rest a call can run to its return, with nothing else moving.
* `exists_idle`: any number of rounds leads to a state at rest.
-/

namespace GpuLibc

open Counter ByteMemory

variable {v : Variant} {r : Ring} {base : Word} {s s' : State} {n i : ℕ} {c : Call}

/-- The calls do not overlap, and the polling thread stays awake. -/
def Undisturbed (s : State) (a : Label) : Prop := sequential s a ∧ pollerAwake s a

/-- A bound on the number of steps that a call with room in the ring has left. -/
def Phase.stepsLeft : Phase → ℕ
  | .waitRoom => 8
  | .memsetBuff => 7
  | .memcpyBuff => 6
  | .memsetSqe => 5
  | .fillSqe => 4
  | .storeArray => 3
  | .storeTail => 2
  | .clearFlags => 1
  | .returned => 0

/-- A call that has not returned and does not wait for room makes a step and comes closer to its
return. -/
theorem Call.exists_step (v : Variant) (r : Ring) (sh : Shared) (hc : c.phase ≠ .returned)
    (hroom : c.phase = .waitRoom → hasRoom r sh c) :
    ∃ sh' c', c.step v r sh = some (sh', c') ∧ c'.phase.stepsLeft < c.phase.stepsLeft ∧
      c'.phase ≠ .waitRoom := by
  cases hphase : c.phase with
  | returned => exact absurd hphase hc
  | waitRoom =>
    -- with room the loop ends
    refine ⟨sh, { c with phase := .memsetBuff }, ?_, by simp [Phase.stepsLeft], by simp⟩
    simp only [Call.step, hphase, if_pos (hroom hphase)]
  | storeTail =>
    refine ⟨_, _, by rw [Call.step, hphase], ?_, ?_⟩ <;>
      cases v <;> simp [Variant.afterPublish, Phase.stepsLeft]
  | _ => exact ⟨_, _, by rw [Call.step, hphase], by simp [Phase.stepsLeft], by simp⟩

/-- Between the two states calls have made steps, and the kernel has not. -/
structure OnlyCalls (s s' : State) : Prop where
  reqs : s'.reqs = s.reqs
  posted : s'.posted = s.posted
  reaped : s'.reaped = s.reaped
  poller : s'.poller = s.poller
  head : s'.shared.sringHead = s.shared.sringHead

theorem OnlyCalls.trans {t : State} (h : OnlyCalls s s') (h' : OnlyCalls s' t) :
    OnlyCalls s t where
  reqs := h'.reqs.trans h.reqs
  posted := h'.posted.trans h.posted
  reaped := h'.reaped.trans h.reaped
  poller := h'.poller.trans h.poller
  head := h'.head.trans h.head

/-- A call in progress that has room can run to its return. -/
theorem exists_returned (s : State) (hc : s.calls[i]? = some c)
    (hroom : c.phase = .waitRoom → hasRoom r s.shared c) :
    ∃ s', (system v r).Reaches Undisturbed s s' ∧ OnlyCalls s s' ∧
      s'.calls = s.calls.set i { c with phase := .returned } ∧
      s'.shared.sqTailCache = s.shared.sqTailCache ∧
      s'.shared.sringTail = if c.published then s.shared.sringTail else c.tail + 1 := by
  -- on the number of steps left
  induction hn : c.phase.stepsLeft using Nat.strong_induction_on generalizing s c with
  | _ n ih =>
    by_cases hphase : c.phase = .returned
    · -- there is nothing left to do
      refine ⟨s, .refl, ⟨rfl, rfl, rfl, rfl, rfl⟩, ?_, rfl, by simp [Call.published, hphase]⟩
      obtain ⟨hlt, rfl⟩ := List.getElem?_eq_some_iff.mp hc
      rw [← hphase, List.set_getElem_self]
    · obtain ⟨sh', c', hstep, hless, hpast⟩ := c.exists_step v r s.shared hphase hroom
      obtain ⟨hmsg, hticket⟩ := Call.step_args hstep
      obtain ⟨hcache, hhead, htail⟩ := Call.step_words hstep
      have hlt := (List.getElem?_eq_some_iff.mp hc).1
      have hs : (system v r).step s (.call i) =
          some { s with shared := sh', calls := s.calls.set i c' } := by
        show (s.calls[i]?.bind _) = _
        rw [hc, Option.bind_some, hstep]
        rfl
      have hnext : (system v r).Reaches Undisturbed s
          { s with shared := sh', calls := s.calls.set i c' } :=
        .single (a := .call i) ⟨trivial, trivial⟩ hs
      obtain ⟨t, hreach, honly, hcalls, htcache, httail⟩ :=
        ih _ (hn ▸ hless) { s with shared := sh', calls := s.calls.set i c' }
          (List.getElem?_set_self hlt) (fun hw => absurd hw hpast) rfl
      have hmoved : OnlyCalls s { s with shared := sh', calls := s.calls.set i c' } :=
        ⟨rfl, rfl, rfl, rfl, hhead⟩
      refine ⟨t, hnext.trans hreach, hmoved.trans honly, ?_, htcache.trans hcache, ?_⟩
      · rw [hcalls, List.set_set, hmsg, hticket]
      · -- the remaining steps store the tail unless this one did
        rw [httail, htail, hticket]
        have hpub := Call.step_published hstep
        by_cases hstore : c.phase = .storeTail
        · simp [hstore, Call.published]
        · simp [hpub, hstore]

/-- Everything is at rest after `n` calls whose requests have completed. -/
structure Idle (base : Word) (s : State) (n : ℕ) : Prop where
  quiescent : s.Quiescent
  calls : s.calls.length = n
  reqs : s.reqs.length = n
  posted : s.posted.length = n
  reaped : s.reaped = 0
  completed : ∀ q ∈ s.reqs, q.completed = true
  poller : s.poller = .polling
  cache : s.shared.sqTailCache = after base n
  tail : s.shared.sringTail = after base n
  head : s.shared.sringHead = after base n
  ticket : ∀ i c, s.calls[i]? = some c → c.tail = after base i

theorem Idle.of_init (h : Initial s) : Idle s.shared.sringTail s 0 where
  quiescent := by simp [State.Quiescent, h.calls]
  calls := by simp [h.calls]
  reqs := by simp [h.reqs]
  posted := by simp [h.posted]
  reaped := h.reaped
  completed := by simp [h.reqs]
  poller := h.poller
  cache := by rw [h.cache, after_zero]
  tail := (after_zero _).symm
  head := by rw [h.head, after_zero]
  ticket := by simp [h.calls]

/-- From a state at rest a call can run to its return; then one published entry is left. -/
theorem Idle.exists_call (h : Idle base s n) (msg : Message) :
    ∃ s', (system v r).Reaches Undisturbed s s' ∧ OnlyCalls s s' ∧ s'.Quiescent ∧
      s'.calls = s.calls ++ [{ msg, tail := after base n, phase := .returned }] ∧
      s'.shared.sqTailCache = after base (n + 1) ∧ s'.shared.sringTail = after base (n + 1) := by
  let c : Call := { msg, tail := s.shared.sqTailCache, phase := v.afterClaim }
  let t : State :=
    { s with
      shared := { s.shared with sqTailCache := s.shared.sqTailCache + 1 }
      calls := s.calls ++ [c] }
  have hclaim : (system v r).Reaches Undisturbed s t :=
    .single (a := .claim msg) ⟨h.quiescent, trivial⟩ rfl
  have hc : t.calls[n]? = some c := getElem?_concat_self h.calls c
  have hroom : hasRoom r t.shared c := by
    -- the ring is empty
    show s.shared.sqTailCache - s.shared.sringHead < r.sringMask + 1
    have hpos := r.entries_pos
    rw [h.cache, h.head, BitVec.lt_def, r.toNat_sringMask_add_one, BitVec.sub_self]
    exact hpos
  have hpub : c.published = false := by
    cases v <;> rfl
  obtain ⟨s', hreach, honly, hcalls, hcache, htail⟩ := exists_returned t hc fun _ => hroom
  have hset : s'.calls =
      s.calls ++ [{ msg, tail := s.shared.sqTailCache, phase := .returned }] := by
    rw [hcalls]
    exact set_concat_self h.calls _ _
  have honly' : OnlyCalls s s' := ⟨honly.reqs, honly.posted, honly.reaped, honly.poller, honly.head⟩
  refine ⟨s', hclaim.trans hreach, honly', ?_, ?_, ?_, ?_⟩
  · intro d hd
    rcases List.mem_append.mp (hset ▸ hd) with hd | hd
    · exact h.quiescent d hd
    · rw [List.mem_singleton.mp hd]
  · rw [hset, h.cache]
  · rw [hcache]
    show s.shared.sqTailCache + 1 = _
    rw [h.cache, after_add_one]
  · rw [htail, hpub]
    show s.shared.sqTailCache + 1 = _
    rw [h.cache, after_add_one]

/-- From a state at rest one round leads to a state at rest. -/
theorem Idle.exists_succ (h : Idle base s n) (msg : Message) :
    ∃ s', (system v r).Reaches Undisturbed s s' ∧ Idle base s' (n + 1) := by
  obtain ⟨t, hreach, honly, hquiet, hcalls, hcache, htail⟩ := h.exists_call (r := r) (v := v) msg
  have hne : t.shared.sringHead ≠ t.shared.sringTail := by
    rw [honly.head, h.head, htail, ← after_add_one]
    exact fun heq => by simpa using (BitVec.add_right_eq_self.mp heq.symm)
  -- the kernel takes the entry, writes its text and posts its completion
  let q := t.nextRequest r
  let text := read t.shared.mem q.sqe.addr q.sqe.len
  let taken : State :=
    { t with
      shared := { t.shared with sringHead := t.shared.sringHead + 1 }
      reqs := t.reqs ++ [q] }
  let written : State := { taken with reqs := t.reqs ++ [{ q with text := some text }] }
  let completed : State :=
    { written with
      reqs := t.reqs ++ [{ q with text := some text, completed := true }]
      posted := t.posted ++ [{ userData := q.sqe.userData, res := text.length }] }
  have hlen : t.reqs.length = n := by rw [honly.reqs, h.reqs]
  have htake : (system v r).step t .take = some taken :=
    if_pos ⟨honly.poller.trans h.poller, hne⟩
  have hwrite : (system v r).step taken (.write n) = some written := by
    show (taken.reqs[n]?.bind _) = _
    rw [getElem?_concat_self hlen, Option.bind_some, if_pos (show q.text = none from rfl),
      set_concat_self hlen]
  have hcomplete : (system v r).step written (.complete n) = some completed := by
    show (written.reqs[n]?.bind _) = _
    rw [getElem?_concat_self hlen, Option.bind_some, Option.bind_some,
      if_pos (show q.completed = false from rfl), set_concat_self hlen]
  refine ⟨completed, hreach.trans (.trans (.single (a := .take) ⟨trivial, trivial⟩ htake)
    (.trans (.single (a := .write n) ⟨trivial, trivial⟩ hwrite)
      (.single (a := .complete n) ⟨trivial, trivial⟩ hcomplete))), ?_⟩
  refine
    { quiescent := hquiet, calls := ?calls, reqs := ?reqs, posted := ?posted,
      reaped := honly.reaped.trans h.reaped, completed := ?completed,
      poller := honly.poller.trans h.poller, cache := hcache, tail := htail, head := ?head,
      ticket := ?ticket }
  case calls =>
    show t.calls.length = n + 1
    rw [hcalls, List.length_append, h.calls, List.length_singleton]
  case reqs =>
    show (t.reqs ++ [_]).length = n + 1
    rw [List.length_append, hlen, List.length_singleton]
  case posted =>
    show (t.posted ++ [_]).length = n + 1
    rw [List.length_append, honly.posted, h.posted, List.length_singleton]
  case completed =>
    intro e he
    rcases List.mem_append.mp he with he | he
    · exact h.completed e (honly.reqs ▸ he)
    · rw [List.mem_singleton.mp he]
  case head =>
    show t.shared.sringHead + 1 = after base (n + 1)
    rw [honly.head, h.head, after_add_one]
  case ticket =>
    intro i c hc
    change t.calls[i]? = some c at hc
    rw [hcalls] at hc
    rcases getElem?_concat_cases hc with ⟨rfl, rfl⟩ | ⟨-, hc⟩
    · rw [h.calls]
    · exact h.ticket i c hc

/-- After any number of rounds the system is at rest again. -/
theorem exists_idle {s₀ : State} (hinit : Initial s₀) (msg : Message) (n : ℕ) :
    ∃ s, (system v r).Reaches Undisturbed s₀ s ∧ Idle s₀.shared.sringTail s n := by
  induction n with
  | zero => exact ⟨s₀, .refl, Idle.of_init hinit⟩
  | succ n ih =>
    obtain ⟨s, hreach, hidle⟩ := ih
    obtain ⟨s', hround, hidle'⟩ := hidle.exists_succ (r := r) (v := v) msg
    exact ⟨s', hreach.trans hround, hidle'⟩

end GpuLibc
