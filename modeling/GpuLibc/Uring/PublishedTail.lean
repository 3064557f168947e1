import GpuLibc.Uring.Submission

/-!
# The published tail

The tail is written with a plain store of the caller's ticket plus one. It moves forward, and ends
at the ticket counter, as long as no call stores it after a call with a later ticket has. That is
weaker than publication in ticket order, and it needs neither the wait loop nor what the slots
hold, so the result covers all copies of the routine.
-/

namespace GpuLibc

open Counter

variable {v : Variant} {r : Ring} {s₀ s s' : State} {as : List Label}

/-- A call stores the tail only while no call with a later ticket has stored it. -/
def publishesForward (s : State) : Label → Prop
  | .call i => s.publishes i → ∀ c ∈ s.calls.drop (i + 1), c.published = false
  | _ => True

instance (s : State) : ∀ a, Decidable (publishesForward s a)
  | .call i => inferInstanceAs (Decidable (s.publishes i → ∀ c ∈ s.calls.drop (i + 1), _))
  | .claim _ | .take | .write _ | .complete _ | .poller _ => inferInstanceAs (Decidable True)

/-- No store overtakes a later one, and at most `n` tickets are outstanding. -/
def ForwardWithin (n : ℕ) (s : State) (a : Label) : Prop :=
  outstandingAtMost n s a ∧ publishesForward s a

instance (n : ℕ) (s : State) (a : Label) : Decidable (ForwardWithin n s a) :=
  inferInstanceAs (Decidable (_ ∧ _))

/-- No store overtakes a later one, and at most `entries` tickets are outstanding. -/
def Forward (r : Ring) (s : State) (a : Label) : Prop :=
  outstandingAtMost r.entries s a ∧ publishesForward s a

instance (r : Ring) (s : State) (a : Label) : Decidable (Forward r s a) :=
  inferInstanceAs (Decidable (_ ∧ _))

/-- In the runs under `P`, each store of the tail moves it ahead by 1 to `entries`, and whenever no
call is in progress the tail and the ticket counter count all calls made so far. -/
def TailMovesForward (v : Variant) (r : Ring) (P : State → Label → Prop) : Prop :=
  ∀ (s₀ s : State) (as : List Label), (system v r).Runs P s₀ as s →
    (∀ (i : ℕ) (s' : State), s.publishes i → P s (.call i) →
      (system v r).step s (.call i) = some s' →
        1 ≤ (s'.shared.sringTail - s.shared.sringTail).toNat ∧
          (s'.shared.sringTail - s.shared.sringTail).toNat ≤ r.entries) ∧
    (s.Quiescent →
      s.shared.sringTail = s.shared.sqTailCache ∧
        s.shared.sringTail = s₀.shared.sringTail + BitVec.ofNat 32 s.calls.length)

namespace Forward

/-- The counters of a run with at most `n` tickets outstanding, in which the furthest store so far
was that of call `p - 1`. -/
structure Inv (n : ℕ) (base : Word) (s : State) (p : ℕ) : Prop where
  cache : s.shared.sqTailCache = after base s.calls.length
  tail : s.shared.sringTail = after base p
  head : s.shared.sringHead = after base s.reqs.length
  taken_le : s.reqs.length ≤ p
  le_claimed : p ≤ s.calls.length
  outstanding : s.calls.length ≤ s.reqs.length + n
  ticket : ∀ i c, s.calls[i]? = some c → c.tail = after base i
  published : ∀ i c, s.calls[i]? = some c → c.published = true → i < p
  last : ∀ c, s.calls[p - 1]? = some c → 0 < p → c.published = true

namespace Inv

variable {base : Word} {n p i : ℕ} {c : Call}

theorem of_init (h : Initial s) : Inv n s.shared.sringTail s 0 where
  cache := by rw [h.calls, h.cache]; exact (after_zero _).symm
  tail := (after_zero _).symm
  head := by rw [h.reqs, h.head]; exact (after_zero _).symm
  taken_le := by simp [h.reqs]
  le_claimed := Nat.zero_le _
  outstanding := by simp [h.calls]
  ticket := by simp [h.calls]
  published := by simp [h.calls]
  last := by simp [h.calls]

theorem claim (h : Inv n base s p) {msg : Message}
    (hg : s.calls.length < s.reqs.length + n)
    (hs : (system v r).step s (.claim msg) = some s') : Inv n base s' p := by
  obtain rfl := step_claim hs
  have hle := h.le_claimed
  have hnew : v.afterClaim ≠ .returned ∧ v.afterClaim ≠ .clearFlags := by
    cases v <;> simp [Variant.afterClaim]
  refine
    { cache := ?cache, tail := h.tail, head := h.head, taken_le := h.taken_le,
      le_claimed := ?le_claimed, outstanding := ?outstanding, ticket := ?ticket,
      published := ?published, last := ?last }
  case cache => rw [List.length_append, List.length_singleton, ← after_add_one, ← h.cache]
  case le_claimed =>
    simp only [List.length_append, List.length_singleton]
    omega
  case outstanding =>
    simp only [List.length_append, List.length_singleton]
    omega
  case ticket =>
    intro i c hc
    rcases getElem?_concat_cases hc with ⟨rfl, rfl⟩ | ⟨-, hc⟩
    · exact h.cache
    · exact h.ticket i c hc
  case published =>
    intro i c hc hp
    rcases getElem?_concat_cases hc with ⟨rfl, rfl⟩ | ⟨-, hc⟩
    · -- no copy of the routine starts with a call that has published
      simp only [Call.published] at hp
      split at hp <;> simp_all
    · exact h.published i c hc hp
  case last =>
    intro c hc hp
    rcases getElem?_concat_cases hc with ⟨heq, -⟩ | ⟨-, hc⟩
    · omega
    · exact h.last c hc hp

/-- A store that comes after no later one is at or beyond the furthest store so far. -/
theorem le_of_publishes (h : Inv n base s p) (hc : s.calls[i]? = some c)
    (hphase : c.phase = .storeTail) (hg : ∀ d ∈ s.calls.drop (i + 1), d.published = false) :
    p ≤ i := by
  by_contra hlt
  obtain ⟨d, hd⟩ : ∃ d, s.calls[p - 1]? = some d :=
    ⟨_, List.getElem?_eq_getElem (by have := h.le_claimed; omega)⟩
  have hlast := h.last d hd (by omega)
  -- the furthest store so far was made by a later call or by this one
  rcases Nat.lt_or_ge i (p - 1) with hi | hi
  · have hmem : d ∈ s.calls.drop (i + 1) :=
      List.mem_iff_getElem?.mpr ⟨p - 1 - (i + 1), by
        rw [List.getElem?_drop, Nat.add_sub_cancel' (by omega), hd]⟩
    simp [hg d hmem] at hlast
  · -- the call itself would have published already
    obtain rfl : i = p - 1 := by omega
    obtain rfl : c = d := Option.some.inj (hc.symm.trans hd)
    simp [Call.published_of_storeTail hphase] at hlast

/-- The store of the tail by call `i` leaves it `i + 1` increments after the start. -/
theorem publish (h : Inv n base s p) {sh' : Shared} {c' : Call} (hc : s.calls[i]? = some c)
    (hstep : c.step v r s.shared = some (sh', c')) (hphase : c.phase = .storeTail) (hi : p ≤ i) :
    Inv n base { s with shared := sh', calls := s.calls.set i c' } (i + 1) := by
  obtain ⟨hcache, hhead, htail⟩ := Call.step_words hstep
  have hlt := (List.getElem?_eq_some_iff.mp hc).1
  refine
    { cache := ?cache, tail := ?tail, head := hhead.trans h.head,
      taken_le := h.taken_le.trans (by omega), le_claimed := ?le_claimed,
      outstanding := ?outstanding, ticket := ?ticket, published := ?published, last := ?last }
  case cache => rw [List.length_set, hcache, h.cache]
  case tail => rw [htail, if_pos hphase, h.ticket i c hc, after_add_one]
  case le_claimed =>
    rw [List.length_set]
    exact hlt
  case outstanding =>
    rw [List.length_set]
    exact h.outstanding
  case ticket =>
    intro j d hd
    rcases getElem?_set_cases hd with ⟨rfl, rfl⟩ | ⟨-, hd⟩
    · rw [(Call.step_args hstep).2, h.ticket j c hc]
    · exact h.ticket j d hd
  case published =>
    -- no call that has published lies behind the furthest store
    intro j d hd hp
    rcases getElem?_set_cases hd with ⟨rfl, rfl⟩ | ⟨-, hd⟩
    · omega
    · have := h.published j d hd hp
      omega
  case last =>
    -- the furthest store is the one made in this step
    intro d hd _
    rcases getElem?_set_cases hd with ⟨-, rfl⟩ | ⟨hne, -⟩
    · exact (Call.step_published hstep).mpr (.inr hphase)
    · omega

/-- The other steps of a call leave the tail alone. -/
theorem call (h : Inv n base s p) {sh' : Shared} {c' : Call} (hc : s.calls[i]? = some c)
    (hstep : c.step v r s.shared = some (sh', c')) (hphase : c.phase ≠ .storeTail) :
    Inv n base { s with shared := sh', calls := s.calls.set i c' } p := by
  obtain ⟨hcache, hhead, htail⟩ := Call.step_words hstep
  have hpub : c'.published = true ↔ c.published = true := by
    rw [Call.step_published hstep, or_iff_left hphase]
  refine
    { cache := ?cache, tail := ?tail, head := hhead.trans h.head, taken_le := h.taken_le,
      le_claimed := ?le_claimed, outstanding := ?outstanding, ticket := ?ticket,
      published := ?published, last := ?last }
  case cache => rw [List.length_set, hcache, h.cache]
  case tail => rw [htail, if_neg hphase, h.tail]
  case le_claimed =>
    rw [List.length_set]
    exact h.le_claimed
  case outstanding =>
    rw [List.length_set]
    exact h.outstanding
  case ticket =>
    intro j d hd
    rcases getElem?_set_cases hd with ⟨rfl, rfl⟩ | ⟨-, hd⟩
    · rw [(Call.step_args hstep).2, h.ticket j c hc]
    · exact h.ticket j d hd
  case published =>
    intro j d hd hp
    rcases getElem?_set_cases hd with ⟨rfl, rfl⟩ | ⟨-, hd⟩
    · exact h.published j c hc (hpub.mp hp)
    · exact h.published j d hd hp
  case last =>
    intro d hd hp
    -- the call with the furthest store stays published
    rcases getElem?_set_cases hd with ⟨heq, rfl⟩ | ⟨-, hd⟩
    · exact hpub.mpr (h.last c (heq ▸ hc) hp)
    · exact h.last d hd hp

theorem take (h : Inv n base s p) (hs : (system v r).step s .take = some s') :
    Inv n base s' p := by
  obtain ⟨-, hne, rfl⟩ := step_take hs
  -- equal positions would show equal counters, and the kernel would have nothing to take
  have hlt : s.reqs.length < p := by
    refine lt_of_le_of_ne h.taken_le fun heq => hne ?_
    rw [h.head, h.tail, heq]
  have hout := h.outstanding
  refine
    { cache := h.cache, tail := h.tail, head := ?head, taken_le := ?taken_le,
      le_claimed := h.le_claimed, outstanding := ?outstanding, ticket := h.ticket,
      published := h.published, last := h.last }
  case head => rw [List.length_append, List.length_singleton, ← after_add_one, ← h.head]
  case taken_le => rwa [List.length_append, List.length_singleton]
  case outstanding =>
    simp only [List.length_append]
    omega

/-- Steps that change neither the calls, the ring counters nor the number of requests. -/
theorem of_eq (h : Inv n base s p) (hcalls : s'.calls = s.calls)
    (hlen : s'.reqs.length = s.reqs.length)
    (hshared : ∃ flags, s'.shared = { s.shared with sringFlags := flags }) :
    Inv n base s' p := by
  obtain ⟨flags, hshared⟩ := hshared
  constructor <;> simp only [hcalls, hlen, hshared]
  exacts [h.cache, h.tail, h.head, h.taken_le, h.le_claimed, h.outstanding, h.ticket, h.published,
    h.last]

theorem step (h : Inv n base s p) {a : Label} (hg : ForwardWithin n s a)
    (hs : (system v r).step s a = some s') : ∃ q, Inv n base s' q := by
  cases a with
  | claim msg => exact ⟨p, h.claim hg.1 hs⟩
  | call i =>
    obtain ⟨c, sh', c', hc, hstep, rfl⟩ := step_call hs
    -- only a store of the tail moves `p`
    by_cases hphase : c.phase = .storeTail
    · have hle := h.le_of_publishes hc hphase (hg.2 (by simp [State.publishes, hc, hphase]))
      exact ⟨_, h.publish hc hstep hphase hle⟩
    · exact ⟨_, h.call hc hstep hphase⟩
  | take => exact ⟨p, h.take hs⟩
  | write j =>
    obtain ⟨q, -, -, rfl⟩ := step_write hs
    exact ⟨p, h.of_eq rfl (List.length_set ..) ⟨_, rfl⟩⟩
  | complete j =>
    obtain ⟨q, _, -, -, -, rfl⟩ := step_complete hs
    exact ⟨p, h.of_eq rfl (List.length_set ..) ⟨_, rfl⟩⟩
  | poller a =>
    rw [step_poller hs]
    exact ⟨p, h.of_eq rfl rfl ⟨_, rfl⟩⟩

end Inv

theorem inv_of_runs {n : ℕ} (h : (system v r).Runs (ForwardWithin n) s₀ as s) :
    ∃ p, Inv n s₀.shared.sringTail s p :=
  h.invariant (I := fun s => ∃ p, Inv n s₀.shared.sringTail s p)
    (fun hinit => ⟨0, Inv.of_init hinit⟩) fun _ _ _ ⟨_, hinv⟩ hg hs => hinv.step hg hs

end Forward

/-- While no store comes after a later one, the tail moves forward and no store is lost. -/
theorem tailMovesForward_of_forward (v : Variant) (r : Ring) :
    TailMovesForward v r (Forward r) := by
  intro s₀ s as h
  obtain ⟨p, hinv⟩ := Forward.inv_of_runs (n := r.entries) h
  have hout := hinv.outstanding
  have hentries := r.entries_le
  refine ⟨fun i s' hpub hg hs => ?_, fun hquiet => ?_⟩
  · obtain ⟨c, sh', c', hc, hstep, rfl⟩ := step_call hs
    have hphase : c.phase = .storeTail := by simpa [State.publishes, hc] using hpub
    have hle := hinv.le_of_publishes hc hphase (hg.2 hpub)
    have hlt := (List.getElem?_eq_some_iff.mp hc).1
    have htaken := hinv.taken_le
    -- the tail goes from `p` to `i + 1` increments, and both lie within the ring's window
    rw [(Call.step_words hstep).2.2, if_pos hphase, hinv.ticket i c hc, hinv.tail, after_add_one,
      toNat_after_sub (by omega) (by omega)]
    omega
  · -- every call has stored the tail, the last one among them
    have hall : s.calls.length ≤ p := by
      by_contra hlt
      obtain ⟨c, hc⟩ : ∃ c, s.calls[p]? = some c := ⟨_, List.getElem?_eq_getElem (by omega)⟩
      have hpub := hquiet.published (List.mem_of_getElem? hc)
      exact absurd (hinv.published p c hc hpub) (lt_irrefl p)
    obtain rfl : p = s.calls.length := le_antisymm hinv.le_claimed hall
    exact ⟨hinv.tail.trans hinv.cache.symm, hinv.tail⟩

/-- Two overlapping calls of the routine without the wait loop that publish one after the other. -/
def oneAfterTheOther : List Label :=
  [.claim helloA, .claim helloB] ++ List.replicate 6 (.call 0) ++ List.replicate 6 (.call 1)

theorem tailMovesForward_inTurn :
    ∃ s : State, (system .ioUringCpuMt demoRing).Runs (Forward demoRing) .afterSetup
        oneAfterTheOther s ∧
      s.Quiescent ∧ s.calls.length = 2 ∧ s.shared.sringTail = s.shared.sqTailCache := by
  have hrun : (system .ioUringCpuMt demoRing).Runs (Forward demoRing) .afterSetup
      oneAfterTheOther _ := .of_runUnder State.initial_afterSetup (by decide +kernel)
  have hmoves := tailMovesForward_of_forward .ioUringCpuMt demoRing .afterSetup _ _ hrun
  exact ⟨_, hrun, by decide +kernel, by decide +kernel, (hmoves.2 (by decide +kernel)).1⟩

/-- Two overlapping calls of `steps` steps after the claim; the second publishes first. -/
def overtakingStores (steps : ℕ) : List Label :=
  [.claim helloA, .claim helloB] ++ List.replicate steps (.call 1) ++
    List.replicate steps (.call 0)

/-- Without the condition the second store of two overlapping calls takes the tail back, in the
routine with the wait loop and in the one without. -/
theorem not_tailMovesForward :
    (¬ ∀ r : Ring, TailMovesForward .gpuSvmDemo r (outstandingAtMost r.entries)) ∧
      ¬ ∀ r : Ring, TailMovesForward .ioUringCpuMt r (outstandingAtMost r.entries) := by
  constructor
  · intro h
    have hrun := (h demoRing .afterSetup _ (overtakingStores 7)
      (.of_runUnder State.initial_afterSetup (by decide +kernel))).2 (by decide +kernel)
    exact absurd hrun.1 (by decide +kernel)
  · intro h
    have hrun := (h demoRing .afterSetup _ (overtakingStores 6)
      (.of_runUnder State.initial_afterSetup (by decide +kernel))).2 (by decide +kernel)
    exact absurd hrun.1 (by decide +kernel)

end GpuLibc
