import GpuLibc.Uring.Slots

/-!
# Publication in ticket order

`uring_perror` of `gpu_svm_demo` claims tickets with an atomic counter and publishes with a plain
store of its own ticket plus one. The ring works as long as the calls publish in the order of
their tickets; this file carries the invariant of those runs.

* `publishesInOrder`: the condition on a publishing step that all earlier calls have published.
* `InOrder.Inv`: the relation between the wrapped counters, the slots and the lists of calls and
  requests, with `p` calls published.
* `InOrder.inv_of_runs`: it holds in every state of a run whose steps publish in order.
-/

namespace GpuLibc

open Counter

/-! ## Conditions on a step -/

/-- A claim leaves at most `n` tickets claimed and not yet taken by the kernel. -/
def outstandingAtMost (n : ℕ) (s : State) : Label → Prop
  | .claim _ => s.calls.length < s.reqs.length + n
  | _ => True

/-- The step is the store of the tail by the call with index `i`. -/
def State.publishes (s : State) (i : ℕ) : Prop := s.calls[i]?.map Call.phase = some .storeTail

/-- A call stores the tail only when all calls with earlier tickets have stored it. -/
def publishesInOrder (s : State) : Label → Prop
  | .call i => s.publishes i → ∀ c ∈ s.calls.take i, c.published = true
  | _ => True

instance (n : ℕ) (s : State) : ∀ a, Decidable (outstandingAtMost n s a)
  | .claim _ => inferInstanceAs (Decidable (_ < _))
  | .call _ | .take | .write _ | .complete _ | .poller _ => inferInstanceAs (Decidable True)

instance (s : State) (i : ℕ) : Decidable (s.publishes i) :=
  inferInstanceAs (Decidable (_ = _))

instance (s : State) : ∀ a, Decidable (publishesInOrder s a)
  | .call i => inferInstanceAs (Decidable (s.publishes i → ∀ c ∈ s.calls.take i, _))
  | .claim _ | .take | .write _ | .complete _ | .poller _ => inferInstanceAs (Decidable True)

/-- Tickets are published in order, and no two outstanding tickets have the same 32-bit value. -/
def InOrder (s : State) (a : Label) : Prop :=
  outstandingAtMost (2 ^ 32) s a ∧ publishesInOrder s a

instance (s : State) (a : Label) : Decidable (InOrder s a) :=
  inferInstanceAs (Decidable (_ ∧ _))

namespace InOrder

/-- The state of the ring after counters started at `base`, with the first `p` calls published. -/
structure Inv (r : Ring) (base : Word) (s : State) (p : ℕ) : Prop where
  cache : s.shared.sqTailCache = after base s.calls.length
  tail : s.shared.sringTail = after base p
  head : s.shared.sringHead = after base s.reqs.length
  taken_le : s.reqs.length ≤ p
  le_claimed : p ≤ s.calls.length
  outstanding : s.calls.length ≤ s.reqs.length + 2 ^ 32
  ticket : ∀ i c, s.calls[i]? = some c → c.tail = after base i
  published : ∀ i c, s.calls[i]? = some c → (c.published = true ↔ i < p)
  -- a call past the wait loop has its ticket inside the window of the ring
  room : ∀ i c, s.calls[i]? = some c → c.phase ≠ .waitRoom → i < s.reqs.length + r.entries
  filled : ∀ i c, s.calls[i]? = some c → s.reqs.length ≤ i → Filled r s.shared c
  log : s.reqs.map Request.entry = (s.calls.map (Call.entry r)).take s.reqs.length

variable {r : Ring} {base : Word} {s s' : State} {p i j : ℕ} {c d : Call}

namespace Inv

theorem lt_length (hc : s.calls[i]? = some c) : i < s.calls.length :=
  (List.getElem?_eq_some_iff.mp hc).1

theorem le_of_not_published (h : Inv r base s p) (hc : s.calls[i]? = some c)
    (hp : c.published = false) : p ≤ i := by
  by_contra hlt
  simp [(h.published i c hc).mpr (by omega)] at hp

/-- The first call that has not published. -/
theorem exists_unpublished (h : Inv r base s p) (hlt : p < s.calls.length) :
    ∃ c, s.calls[p]? = some c ∧ c.published = false := by
  refine ⟨s.calls[p], List.getElem?_eq_getElem hlt, ?_⟩
  by_contra hpub
  rw [Bool.not_eq_false] at hpub
  exact absurd ((h.published p _ (List.getElem?_eq_getElem hlt)).mp hpub) (lt_irrefl p)

/-- A call that has not published holds a ticket the head has not passed. -/
theorem taken_le_ticket (h : Inv r base s p) (hc : s.calls[i]? = some c)
    (hp : c.published = false) : s.reqs.length ≤ i :=
  h.taken_le.trans (h.le_of_not_published hc hp)

/-- For a ticket the head has not passed, the unsigned `tail - head` is the true distance. -/
theorem toNat_tail_sub_head (h : Inv r base s p) (hc : s.calls[i]? = some c)
    (hi : s.reqs.length ≤ i) : (c.tail - s.shared.sringHead).toNat = i - s.reqs.length := by
  have hlt := lt_length hc
  have hout := h.outstanding
  -- both counters are positions behind `base`, less than `2 ^ 32` apart
  rw [h.ticket i c hc, h.head]
  exact toNat_after_sub hi (by omega)

/-- The loop test compares the true distance with the number of entries. -/
theorem hasRoom_iff (h : Inv r base s p) (hc : s.calls[i]? = some c) (hi : s.reqs.length ≤ i) :
    hasRoom r s.shared c ↔ i < s.reqs.length + r.entries := by
  rw [hasRoom, BitVec.lt_def, h.toNat_tail_sub_head hc hi, r.toNat_sringMask_add_one]
  omega

/-- Published and not yet taken entries fit into the ring. -/
theorem published_le (h : Inv r base s p) : p ≤ s.reqs.length + r.entries := by
  rcases Nat.eq_zero_or_pos p with rfl | hpos
  · omega
  · -- the last published call has found room
    have hlt : p - 1 < s.calls.length := by have := h.le_claimed; omega
    have hc : s.calls[p - 1]? = some s.calls[p - 1] := List.getElem?_eq_getElem hlt
    have hpub := (h.published _ _ hc).mpr (by omega)
    have hroom := h.room _ _ hc (Call.ne_waitRoom_of_published hpub)
    omega

/-- The first `p` calls are the published ones, so there are `p` of them. -/
theorem published_eq (h : Inv r base s p) : s.published = p := by
  have hle := h.le_claimed
  have hfirst : (s.calls.take p).countP Call.published = p := by
    rw [List.countP_eq_length.mpr, List.length_take, Nat.min_eq_left hle]
    intro c hc
    obtain ⟨i, hlt, hi⟩ := getElem?_of_mem_take hc
    exact (h.published i c hi).mpr hlt
  -- the calls behind the first `p` have not published
  have hrest : (s.calls.drop p).countP Call.published = 0 := by
    rw [List.countP_eq_zero]
    intro c hc hpub
    obtain ⟨i, hi⟩ := List.mem_iff_getElem?.mp hc
    rw [List.getElem?_drop] at hi
    have hlt := (h.published (p + i) c hi).mp hpub
    omega
  calc s.published
      = (s.calls.take p ++ s.calls.drop p).countP Call.published := by
        rw [List.take_append_drop, State.published]
    _ = p := by rw [List.countP_append, hfirst, hrest, Nat.add_zero]

/-- The kernel finds something to take exactly when a published entry is left. -/
theorem head_eq_tail_iff (h : Inv r base s p) :
    s.shared.sringHead = s.shared.sringTail ↔ s.reqs.length = p := by
  have hle := h.published_le
  have hentries := r.entries_le
  rw [h.head, h.tail]
  refine ⟨fun heq => ?_, fun heq => by rw [heq]⟩
  -- the two counters are less than `2 ^ 32` apart
  exact (after_injective_of_lt h.taken_le (by omega) heq.symm).symm

/-- Two calls past the wait loop, neither of them taken, hold different slots. -/
theorem idx_ne (h : Inv r base s p) (hc : s.calls[i]? = some c) (hd : s.calls[j]? = some d)
    (hij : i ≠ j) (hcp : c.phase ≠ .waitRoom) (hdp : d.phase ≠ .waitRoom)
    (hi : s.reqs.length ≤ i) (hj : s.reqs.length ≤ j) : r.idx c.tail ≠ r.idx d.tail := by
  -- two positions of one ring-sized stretch
  rw [h.ticket i c hc, h.ticket j d hd]
  exact r.idx_after_ne hi (h.room i c hc hcp) hj (h.room j d hd hdp) hij

/-- While a call fills its slot, its step leaves every other slot in use alone. -/
theorem slotEq_of_step (h : Inv r base s p) {v : Variant} {sh' : Shared} {c' : Call}
    (hc : s.calls[i]? = some c) (hstep : c.step v r s.shared = some (sh', c'))
    (hd : s.calls[j]? = some d) (hij : j ≠ i) (hdp : d.phase ≠ .waitRoom)
    (hj : s.reqs.length ≤ j) : SlotEq r d.tail s.shared sh' := by
  refine Call.step_slotEq hstep fun hfill => ?_
  obtain ⟨hpub, hcp, -⟩ := Call.of_filling hfill
  exact h.idx_ne hd hc hij hdp hcp hj (h.taken_le_ticket hc hpub)

theorem of_init (h : Initial s) : Inv r s.shared.sringTail s 0 where
  cache := by rw [h.calls, h.cache]; exact (after_zero _).symm
  tail := (after_zero _).symm
  head := by rw [h.reqs, h.head]; exact (after_zero _).symm
  taken_le := by simp [h.reqs]
  le_claimed := Nat.zero_le _
  outstanding := by simp [h.calls]
  ticket := by simp [h.calls]
  published := by simp [h.calls]
  room := by simp [h.calls]
  filled := by simp [h.calls]
  log := by simp [h.calls, h.reqs]

theorem claim (h : Inv r base s p) {msg : Message} (hg : s.calls.length < s.reqs.length + 2 ^ 32)
    (hs : (system .gpuSvmDemo r).step s (.claim msg) = some s') : Inv r base s' p := by
  obtain rfl := step_claim hs
  have hle := h.le_claimed
  -- the new call waits for room under the ticket `s.calls.length`
  refine
    { cache := ?cache, tail := h.tail, head := h.head, taken_le := h.taken_le,
      le_claimed := ?le_claimed, outstanding := ?outstanding, ticket := ?ticket,
      published := ?published, room := ?room, filled := ?filled, log := ?log }
  case cache => rw [List.length_append, List.length_singleton, ← after_add_one, ← h.cache]
  case le_claimed =>
    simp only [List.length_append, List.length_singleton]
    omega
  case outstanding =>
    simp only [List.length_append, List.length_singleton]
    omega
  case ticket =>
    intro i c hc
    rcases getElem?_concat_cases hc with ⟨rfl, rfl⟩ | ⟨-, hc⟩
    · exact h.cache
    · exact h.ticket i c hc
  case published =>
    intro i c hc
    rcases getElem?_concat_cases hc with ⟨rfl, rfl⟩ | ⟨-, hc⟩
    · simp only [Call.published, Variant.afterClaim, Bool.false_eq_true, false_iff]
      omega
    · exact h.published i c hc
  case room =>
    intro i c hc hp
    rcases getElem?_concat_cases hc with ⟨rfl, rfl⟩ | ⟨-, hc⟩
    · exact absurd rfl hp
    · exact h.room i c hc hp
  case filled =>
    intro i c hc hi
    rcases getElem?_concat_cases hc with ⟨rfl, rfl⟩ | ⟨-, hc⟩
    · -- a waiting call has put nothing into its slot yet
      trivial
    · exact h.filled i c hc hi
  case log =>
    rw [List.map_append, List.take_append_of_le_length (by simpa using h.taken_le.trans hle)]
    exact h.log

/-- A step of a call, when it is known how many calls have published after it. -/
theorem call (h : Inv r base s p) {v : Variant} {sh' : Shared} {c' : Call} {q : ℕ}
    (hc : s.calls[i]? = some c) (hstep : c.step v r s.shared = some (sh', c'))
    (htail : sh'.sringTail = after base q) (hpq : p ≤ q) (hq : q ≤ s.calls.length)
    (hcq : c'.published = true ↔ i < q) (hother : ∀ j, j ≠ i → (j < p ↔ j < q)) :
    Inv r base { s with shared := sh', calls := s.calls.set i c' } q := by
  obtain ⟨hcache, hhead, -⟩ := Call.step_words hstep
  obtain ⟨-, hticket⟩ := Call.step_args hstep
  have hroom : c'.phase ≠ .waitRoom → i < s.reqs.length + r.entries := fun hp => by
    -- the call was past the loop, or its loop test has just succeeded
    rcases Call.step_waitRoom hstep hp with hphase | hhas
    · exact h.room i c hc hphase
    · rcases Nat.lt_or_ge i s.reqs.length with hlt | hge
      · omega
      · exact (h.hasRoom_iff hc hge).mp hhas
  refine
    { cache := ?cache, tail := htail, head := hhead.trans h.head,
      taken_le := h.taken_le.trans hpq, le_claimed := ?le_claimed, outstanding := ?outstanding,
      ticket := ?ticket, published := ?published, room := ?room, filled := ?filled, log := ?log }
  case cache => simpa [hcache] using h.cache
  case le_claimed => simpa using hq
  case outstanding => simpa using h.outstanding
  case ticket =>
    intro j d hd
    rcases getElem?_set_cases hd with ⟨rfl, rfl⟩ | ⟨-, hd⟩
    · exact hticket.trans (h.ticket j c hc)
    · exact h.ticket j d hd
  case published =>
    intro j d hd
    -- only the call that steps can publish
    rcases getElem?_set_cases hd with ⟨rfl, rfl⟩ | ⟨hne, hd⟩
    · exact hcq
    · exact (h.published j d hd).trans (hother j hne)
  case room =>
    intro j d hd hp
    rcases getElem?_set_cases hd with ⟨rfl, rfl⟩ | ⟨-, hd⟩
    · exact hroom hp
    · exact h.room j d hd hp
  case filled =>
    intro j d hd hj
    rcases getElem?_set_cases hd with ⟨rfl, rfl⟩ | ⟨hne, hd⟩
    · exact Call.step_filled hstep (h.filled j c hc hj)
    · -- another call keeps its slot; before it finds room it has none
      by_cases hdp : d.phase = .waitRoom
      · simp [Filled, hdp]
      · exact (h.filled j d hd hj).congr (h.slotEq_of_step hc hstep hd hne hdp hj)
  case log =>
    -- the log compares messages and tickets, which a step does not change
    rw [map_set_eq hc (Call.step_entry hstep)]
    exact h.log

/-- The entry the kernel finds at the head is the complete entry of the call that holds the
head's ticket. -/
theorem nextRequest_entry (h : Inv r base s p) (hlt : s.reqs.length < p)
    (hc : s.calls[s.reqs.length]? = some c) : (s.nextRequest r).entry = c.entry r := by
  obtain ⟨hwindow, hsqe, harray⟩ :=
    (h.filled _ c hc le_rfl).of_published ((h.published _ c hc).mpr hlt)
  -- the head shows the ticket of the call
  have hpos : s.shared.sringHead = c.tail := h.head.trans (h.ticket _ c hc).symm
  simp only [Request.entry, State.nextRequest, Call.entry, hpos, harray, hsqe]
  exact congrArg _ (congrArg _ hwindow)

/-- Request `j` is the entry of call `j`, which has published. -/
theorem exists_call (h : Inv r base s p) {q : Request} (hq : s.reqs[j]? = some q) :
    ∃ c, s.calls[j]? = some c ∧ q.entry = c.entry r ∧ j < p := by
  have hlt : j < s.reqs.length := (List.getElem?_eq_some_iff.mp hq).1
  have htaken := h.taken_le
  have hclaimed := h.le_claimed
  have hc : s.calls[j]? = some s.calls[j] := List.getElem?_eq_getElem (by omega)
  -- read the log at position `j`
  have hlog := congrArg (fun l => l[j]?) h.log
  simp only [List.getElem?_map, List.getElem?_take_of_lt hlt, hq, hc, Option.map_some,
    Option.some.injEq] at hlog
  exact ⟨_, hc, hlog, by omega⟩

/-- The kernel takes an entry only when a published one is left. -/
theorem lt_of_step_take (h : Inv r base s p) {v : Variant}
    (hs : (system v r).step s .take = some s') : s.reqs.length < p := by
  obtain ⟨-, hne, -⟩ := step_take hs
  exact lt_of_le_of_ne h.taken_le fun heq => hne (h.head_eq_tail_iff.mpr heq)

theorem take (h : Inv r base s p) {v : Variant} (hs : (system v r).step s .take = some s') :
    Inv r base s' p := by
  have hlt := h.lt_of_step_take hs
  obtain ⟨-, -, rfl⟩ := step_take hs
  have hle := h.le_claimed
  have hc : s.calls[s.reqs.length]? = some s.calls[s.reqs.length] :=
    List.getElem?_eq_getElem (by omega)
  have hentry := h.nextRequest_entry hlt hc
  refine
    { cache := h.cache, tail := h.tail, head := ?head, taken_le := ?taken_le, le_claimed := hle,
      outstanding := ?outstanding, ticket := h.ticket, published := h.published, room := ?room,
      filled := ?filled, log := ?log }
  case head => rw [List.length_append, List.length_singleton, ← after_add_one, ← h.head]
  case taken_le => rwa [List.length_append, List.length_singleton]
  case outstanding =>
    have hout := h.outstanding
    simp only [List.length_append, List.length_singleton]
    omega
  case room =>
    -- the window of the ring moves up by one ticket
    intro i c hc hp
    have hroom := h.room i c hc hp
    simp only [List.length_append, List.length_singleton]
    omega
  case filled =>
    intro i c hc hi
    refine h.filled i c hc ?_
    simp only [List.length_append, List.length_singleton] at hi
    omega
  case log =>
    -- the log grows by the entry at the head
    rw [List.map_append, h.log, List.length_append, List.map_singleton, List.length_singleton,
      List.take_add_one, List.getElem?_map, hc, hentry]
    rfl

/-- Steps that change neither the calls, the slots nor what was taken. -/
theorem of_eq (h : Inv r base s p) (hcalls : s'.calls = s.calls)
    (hlen : s'.reqs.length = s.reqs.length)
    (hlog : s'.reqs.map Request.entry = s.reqs.map Request.entry)
    (hshared : ∃ flags, s'.shared = { s.shared with sringFlags := flags }) :
    Inv r base s' p := by
  obtain ⟨flags, hshared⟩ := hshared
  constructor <;> simp only [hcalls, hlen, hlog, hshared]
  exacts [h.cache, h.tail, h.head, h.taken_le, h.le_claimed, h.outstanding, h.ticket, h.published,
    h.room, h.filled, h.log]

/-- A call that publishes in order is the first one that has not published. -/
theorem eq_of_publishes (h : Inv r base s p) (hc : s.calls[i]? = some c)
    (hphase : c.phase = .storeTail) (hg : ∀ d ∈ s.calls.take i, d.published = true) : i = p := by
  have hlt := lt_length hc
  have hge := h.le_of_not_published hc (Call.published_of_storeTail hphase)
  -- otherwise the call with index `p` is an earlier one that has not published
  by_contra hne
  obtain ⟨d, hd, hpub⟩ := h.exists_unpublished (by omega : p < s.calls.length)
  have hmem : d ∈ s.calls.take i :=
    List.mem_iff_getElem?.mpr ⟨p, by rw [List.getElem?_take_of_lt (by omega), hd]⟩
  simp [hg d hmem] at hpub

/-- A step of a call that does not store the tail leaves the number of published calls alone. -/
theorem call_of_ne (h : Inv r base s p) {v : Variant} {sh' : Shared} {c' : Call}
    (hc : s.calls[i]? = some c) (hstep : c.step v r s.shared = some (sh', c'))
    (hphase : c.phase ≠ .storeTail) :
    Inv r base { s with shared := sh', calls := s.calls.set i c' } p := by
  refine h.call hc hstep ?_ le_rfl h.le_claimed ?_ fun _ _ => Iff.rfl
  · rw [(Call.step_words hstep).2.2, if_neg hphase, h.tail]
  · rw [Call.step_published hstep, or_iff_left hphase, h.published i c hc]

/-- A store of the tail in order publishes the call with index `p`. -/
theorem call_of_storeTail (h : Inv r base s p) {v : Variant} {sh' : Shared} {c' : Call}
    (hc : s.calls[p]? = some c) (hstep : c.step v r s.shared = some (sh', c'))
    (hphase : c.phase = .storeTail) :
    Inv r base { s with shared := sh', calls := s.calls.set p c' } (p + 1) := by
  refine h.call hc hstep ?_ (by omega) (lt_length hc) ?_ fun j hj => by omega
  · rw [(Call.step_words hstep).2.2, if_pos hphase, h.ticket p c hc, after_add_one]
  · simp [Call.step_published hstep, hphase]

theorem write (h : Inv r base s p) {v : Variant} (hs : (system v r).step s (.write j) = some s') :
    Inv r base s' p := by
  obtain ⟨q, hq, -, rfl⟩ := step_write hs
  exact h.of_eq rfl (List.length_set ..) (map_set_eq hq rfl) ⟨_, rfl⟩

theorem complete (h : Inv r base s p) {v : Variant}
    (hs : (system v r).step s (.complete j) = some s') : Inv r base s' p := by
  obtain ⟨q, _, hq, -, -, rfl⟩ := step_complete hs
  exact h.of_eq rfl (List.length_set ..) (map_set_eq hq rfl) ⟨_, rfl⟩

theorem poller (h : Inv r base s p) {v : Variant} {a : PollerStep}
    (hs : (system v r).step s (.poller a) = some s') : Inv r base s' p := by
  rw [step_poller hs]
  exact h.of_eq rfl rfl rfl ⟨_, rfl⟩

/-- Every step in order preserves the invariant, with one more call published or none. -/
theorem step (h : Inv r base s p) {a : Label} (hg : InOrder s a)
    (hs : (system .gpuSvmDemo r).step s a = some s') : ∃ q, Inv r base s' q := by
  cases a with
  | claim msg => exact ⟨p, h.claim hg.1 hs⟩
  | call i =>
    obtain ⟨c, sh', c', hc, hstep, rfl⟩ := step_call hs
    -- publishing is the only step that moves `p`
    by_cases hphase : c.phase = .storeTail
    · obtain rfl := h.eq_of_publishes hc hphase (hg.2 (by simp [State.publishes, hc, hphase]))
      exact ⟨_, h.call_of_storeTail hc hstep hphase⟩
    · exact ⟨_, h.call_of_ne hc hstep hphase⟩
  | take => exact ⟨p, h.take hs⟩
  | write j => exact ⟨p, h.write hs⟩
  | complete j => exact ⟨p, h.complete hs⟩
  | poller a => exact ⟨p, h.poller hs⟩

end Inv

/-- The invariant holds in every state of a run that publishes in order. -/
theorem inv_of_runs {s₀ : State} {as : List Label}
    (h : (system .gpuSvmDemo r).Runs InOrder s₀ as s) : ∃ p, Inv r s₀.shared.sringTail s p :=
  h.invariant (I := fun s => ∃ p, Inv r s₀.shared.sringTail s p)
    (fun hinit => ⟨0, Inv.of_init hinit⟩) fun _ _ _ ⟨_, hinv⟩ hg hs => hinv.step hg hs

end InOrder

end GpuLibc
