import GpuLibc.Uring.NoWait

/-!
# What the wait loop is for

`gpu_svm_demo` waits for room before it writes to its slot, the other copies of the routine do not.
For calls that publish in ticket order the loop decides nothing else: the copies without it that
start to write only with room reach exactly the states that `gpu_svm_demo` reaches, as far as the
ring, the memory and the kernel can tell.

* `startsWithRoom`: the condition that the loop enforces.
* `Mirrors`: a state of one copy looks like a state of another.
* `observations_eq`: the two copies reach the same observations.
-/

namespace GpuLibc

open Counter

variable {v : Variant} {r : Ring} {base : Word} {s s' t t' : State} {p i : ℕ} {c c' d : Call}
  {sh sh' : Shared}

/-! ## The condition -/

/-- A call starts to write only while its ticket is less than a ring ahead of the head. -/
def startsWithRoom (r : Ring) (s : State) : Label → Prop
  | .call i => s.clears i → i < s.reqs.length + r.entries
  | _ => True

instance (r : Ring) (s : State) : ∀ a, Decidable (startsWithRoom r s a)
  | .call i => inferInstanceAs (Decidable (s.clears i → i < s.reqs.length + r.entries))
  | .claim _ | .take | .write _ | .complete _ | .poller _ => inferInstanceAs (Decidable True)

/-- Tickets are published in order, and every call has room when it starts to write. -/
def RoomInOrder (r : Ring) (s : State) (a : Label) : Prop := InOrder s a ∧ startsWithRoom r s a

instance (r : Ring) (s : State) (a : Label) : Decidable (RoomInOrder r s a) :=
  inferInstanceAs (Decidable (_ ∧ _))

/-! ## What can be observed -/

/-- The call without the phases that only some copies have: the wait loop before the first write,
and the flag word after the store of the tail. -/
def Call.settled (c : Call) : Call :=
  match c.phase with
  | .waitRoom => { c with phase := .memsetBuff }
  | .clearFlags => { c with phase := .returned }
  | _ => c

namespace Call

theorem settled_msg (c : Call) : c.settled.msg = c.msg := by
  unfold settled
  split <;> rfl

theorem settled_tail (c : Call) : c.settled.tail = c.tail := by
  unfold settled
  split <;> rfl

theorem published_settled (c : Call) : c.settled.published = c.published := by
  unfold settled
  split <;> simp_all [published]

theorem settled_of_ne (hwait : c.phase ≠ .waitRoom) (hclear : c.phase ≠ .clearFlags) :
    c.settled = c := by
  unfold settled
  split <;> simp_all

/-- A new call settles to the same in all copies. -/
theorem settled_afterClaim (v w : Variant) {msg : Message} {tail : Word} :
    settled { msg, tail, phase := v.afterClaim } =
      settled { msg, tail, phase := w.afterClaim } := by
  cases v <;> cases w <;> rfl

theorem published_eq (h : c.settled = d.settled) : c.published = d.published := by
  rw [← published_settled c, h, published_settled]

theorem msg_eq (h : c.settled = d.settled) : c.msg = d.msg := by
  rw [← settled_msg c, h, settled_msg]

theorem tail_eq (h : c.settled = d.settled) : c.tail = d.tail := by
  rw [← settled_tail c, h, settled_tail]

theorem entry_eq (r : Ring) (h : c.settled = d.settled) : c.entry r = d.entry r := by
  rw [entry, entry, msg_eq h, tail_eq h]

/-- A call that is past the loop and before the flag word has the phase of every call that settles
to the same, but for the loop. -/
theorem eq_of_settled (h : c.settled = d.settled) (hwait : c.phase ≠ .waitRoom)
    (hclear : c.phase ≠ .clearFlags) (hpub : c.phase ≠ .returned) :
    d = c ∨ c.phase = .memsetBuff ∧ d = { c with phase := .waitRoom } := by
  rw [settled_of_ne hwait hclear] at h
  subst h
  cases hphase : d.phase
  case waitRoom =>
    right
    simp only [settled, hphase, true_and]
    rw [← hphase]
  case clearFlags => simp [settled, hphase] at hpub
  all_goals exact .inl (settled_of_ne (by simp [hphase]) (by simp [hphase])).symm

/-- Between the loop and the flag word the copies agree step by step. -/
theorem step_congr (w : Variant) (flags : Word) (hwait : c.phase ≠ .waitRoom)
    (hclear : c.phase ≠ .clearFlags) (hstep : c.step v r sh = some (sh', c')) :
    ∃ d', c.step w r { sh with sringFlags := flags } =
        some ({ sh' with sringFlags := flags }, d') ∧ d'.settled = c'.settled := by
  cases hphase : c.phase <;>
    simp only [step, hphase, Option.some.injEq, Prod.mk.injEq] at hstep
  case waitRoom => exact absurd hphase hwait
  case clearFlags => exact absurd hphase hclear
  case returned => contradiction
  case storeTail =>
    obtain ⟨rfl, rfl⟩ := hstep
    rw [step, hphase]
    refine ⟨_, rfl, ?_⟩
    cases v <;> cases w <;> rfl
  all_goals
    obtain ⟨rfl, rfl⟩ := hstep
    rw [step, hphase]
    exact ⟨_, rfl, rfl⟩

end Call

/-- The states agree on everything but the flag word, the wait loop and what follows the store of
the tail. -/
structure Mirrors (s t : State) : Prop where
  shared : ∃ flags, t.shared = { s.shared with sringFlags := flags }
  calls : t.calls.map Call.settled = s.calls.map Call.settled
  reqs : t.reqs = s.reqs
  posted : t.posted = s.posted
  reaped : t.reaped = s.reaped
  poller : t.poller = s.poller

namespace Mirrors

theorem refl (s : State) : Mirrors s s := ⟨⟨_, rfl⟩, rfl, rfl, rfl, rfl, rfl⟩

theorem symm (h : Mirrors s t) : Mirrors t s where
  shared := by
    obtain ⟨flags, heq⟩ := h.shared
    exact ⟨s.shared.sringFlags, by rw [heq]⟩
  calls := h.calls.symm
  reqs := h.reqs.symm
  posted := h.posted.symm
  reaped := h.reaped.symm
  poller := h.poller.symm

theorem length_eq (h : Mirrors s t) : t.calls.length = s.calls.length := by
  simpa using congrArg List.length h.calls

/-- The counterpart of a call. -/
theorem exists_call (h : Mirrors s t) (hc : s.calls[i]? = some c) :
    ∃ d, t.calls[i]? = some d ∧ d.settled = c.settled := by
  have hmap := congrArg (fun l => l[i]?) h.calls
  simp only [List.getElem?_map, hc, Option.map_some] at hmap
  exact Option.map_eq_some_iff.mp hmap

/-- What does not tell the phases apart is the same of all calls. -/
theorem map_eq {β : Type*} (h : Mirrors s t) (f : Call → β)
    (hf : ∀ c d : Call, c.settled = d.settled → f c = f d) :
    t.calls.map f = s.calls.map f := by
  refine List.ext_getElem? fun i => ?_
  rw [List.getElem?_map, List.getElem?_map]
  rcases hc : s.calls[i]? with _ | c
  · have hlen := h.length_eq
    rw [List.getElem?_eq_none_iff] at hc
    rw [List.getElem?_eq_none (by omega)]
  · obtain ⟨d, hd, heq⟩ := h.exists_call hc
    rw [hd, Option.map_some, Option.map_some, hf d c heq]

/-- A step of a call that both states make. -/
theorem set (h : Mirrors s t) {d' : Call} {flags : Word} (heq : d'.settled = c'.settled) (i : ℕ) :
    Mirrors { s with shared := sh', calls := s.calls.set i c' }
      { t with shared := { sh' with sringFlags := flags }, calls := t.calls.set i d' } where
  shared := ⟨flags, rfl⟩
  calls := by rw [List.map_set, List.map_set, h.calls, heq]
  reqs := h.reqs
  posted := h.posted
  reaped := h.reaped
  poller := h.poller

/-- A step of a call that only the first state makes. -/
theorem set_left (h : Mirrors s t) (flags : Word) (hc : s.calls[i]? = some c)
    (heq : c'.settled = c.settled) :
    Mirrors
      { s with
        shared := { s.shared with sringFlags := flags }
        calls := s.calls.set i c' } t where
  shared := by
    obtain ⟨flags', hshared⟩ := h.shared
    exact ⟨flags', hshared⟩
  calls := by rw [map_set_eq hc heq, h.calls]
  reqs := h.reqs
  posted := h.posted
  reaped := h.reaped
  poller := h.poller

/-- The idle protocol looks at the head, the tail and the polling thread, which agree. -/
theorem poller_step {w : Variant} {a : PollerStep} (h : Mirrors s t)
    (hs : (system v r).step s (.poller a) = some s') :
    ∃ t', (system w r).step t (.poller a) = some t' ∧ Mirrors s' t' := by
  obtain ⟨flags, hshared⟩ := h.shared
  have hempty : t.shared.sringHead = t.shared.sringTail ↔
      s.shared.sringHead = s.shared.sringTail := by rw [hshared]
  have hkeep : ∀ (f f' : Word) (q : Poller),
      Mirrors { s with shared := { s.shared with sringFlags := f }, poller := q }
        { t with shared := { t.shared with sringFlags := f' }, poller := q } :=
    fun f f' q => ⟨⟨f', by rw [hshared]⟩, h.calls, h.reqs, h.posted, h.reaped, rfl⟩
  change s.pollerStep a = some s' at hs
  change ∃ t', t.pollerStep a = some t' ∧ Mirrors s' t'
  cases a <;> simp only [State.pollerStep, h.poller, hempty] at hs ⊢
  case needWakeup =>
    split at hs
    next hp =>
      cases hs
      exact ⟨_, if_pos hp, hkeep ..⟩
    next => cases hs
  case recheck =>
    split at hs
    next hp =>
      rw [if_pos hp]
      split at hs
      next he =>
        cases hs
        exact ⟨_, if_pos he, hkeep s.shared.sringFlags t.shared.sringFlags _⟩
      next he =>
        cases hs
        exact ⟨_, if_neg he, hkeep ..⟩
    next => cases hs
  case sleep =>
    split at hs
    next hp =>
      cases hs
      exact ⟨_, if_pos hp, hkeep s.shared.sringFlags t.shared.sringFlags _⟩
    next => cases hs
  case enterWakeup =>
    cases hs
    exact ⟨_, rfl, hkeep ..⟩

/-- The steps of the kernel and the claims are the same in both states. -/
theorem step_of_kernel {w : Variant} {a : Label} (h : Mirrors s t) (ha : ∀ i, a ≠ .call i)
    (hs : (system v r).step s a = some s') :
    ∃ t', (system w r).step t a = some t' ∧ Mirrors s' t' := by
  obtain ⟨flags, hshared⟩ := h.shared
  cases a with
  | call i => exact absurd rfl (ha i)
  | claim msg =>
    obtain rfl := step_claim hs
    refine ⟨_, rfl, ⟨flags, ?_⟩, ?_, h.reqs, h.posted, h.reaped, h.poller⟩
    · simp [claim, hshared]
    · simp only [claim, hshared, List.map_append, h.calls, List.map_singleton,
        Call.settled_afterClaim v w]
  | take =>
    obtain ⟨hpoller, hne, rfl⟩ := step_take hs
    refine ⟨_, if_pos ⟨h.poller.trans hpoller, by rwa [hshared]⟩, ⟨flags, ?_⟩, h.calls, ?_,
      h.posted, h.reaped, h.poller⟩
    · simp [hshared]
    · simp [State.nextRequest, hshared, h.reqs]
  | write j =>
    obtain ⟨q, hq, hnone, rfl⟩ := step_write hs
    refine ⟨{ t with
        reqs := t.reqs.set j
          { q with text := some (ByteMemory.read t.shared.mem q.sqe.addr q.sqe.len) } }, ?_,
      ⟨flags, hshared⟩, h.calls, ?_, h.posted, h.reaped, h.poller⟩
    · show t.write j = _
      rw [State.write, h.reqs, hq, Option.bind_some, if_pos hnone]
    · simp [hshared, h.reqs]
  | complete j =>
    obtain ⟨q, text, hq, htext, hnot, rfl⟩ := step_complete hs
    refine ⟨{ t with
        reqs := t.reqs.set j { q with completed := true }
        posted := t.posted ++ [{ userData := q.sqe.userData, res := text.length }] }, ?_,
      ⟨flags, hshared⟩, h.calls, ?_, ?_, h.reaped, h.poller⟩
    · show t.complete j = _
      rw [State.complete, h.reqs, hq, Option.bind_some, htext, Option.bind_some, if_pos hnot]
    · simp [h.reqs]
    · simp [h.posted]
  | poller a =>
    exact h.poller_step hs

/-- Only a call that is about to store the tail settles to one. -/
theorem publishes (h : Mirrors s t) (hpub : t.publishes i) : s.publishes i := by
  obtain ⟨d, hd, hphase⟩ := Option.map_eq_some_iff.mp hpub
  obtain ⟨c, hc, heq⟩ := h.symm.exists_call hd
  obtain rfl | ⟨hne, -⟩ :=
    Call.eq_of_settled heq.symm (by simp [hphase]) (by simp [hphase]) (by simp [hphase])
  · simp [State.publishes, hc, hphase]
  · simp [hphase] at hne

theorem inOrder {a : Label} (h : Mirrors s t) (hg : InOrder s a) : InOrder t a := by
  obtain ⟨hout, hpub⟩ := hg
  cases a with
  | claim msg =>
    refine ⟨?_, trivial⟩
    show t.calls.length < t.reqs.length + 2 ^ 32
    rw [h.length_eq, h.reqs]
    exact hout
  | call i =>
    refine ⟨trivial, fun hstores d hd => ?_⟩
    obtain ⟨j, hlt, hj⟩ := getElem?_of_mem_take hd
    obtain ⟨c, hc, heq⟩ := h.symm.exists_call hj
    rw [← Call.published_eq heq]
    refine hpub (h.publishes hstores) c (List.mem_iff_getElem?.mpr ⟨j, ?_⟩)
    rw [List.getElem?_take_of_lt hlt, hc]
  | _ => exact ⟨trivial, trivial⟩

/-- The guard carries over to a state in which the call starts to write when it does here. -/
theorem roomInOrder (h : Mirrors s t) (hclears : t.clears i → s.clears i)
    (hg : RoomInOrder r s (.call i)) : RoomInOrder r t (.call i) := by
  refine ⟨h.inOrder hg.1, fun hclear => ?_⟩
  rw [h.reqs]
  exact hg.2 (hclears hclear)

/-- A step between the loop and the flag word, of a call that is at the same place in both
states. -/
theorem step_of_same {w : Variant} (h : Mirrors s t) (hg : RoomInOrder r s (.call i))
    (hc : s.calls[i]? = some c) (hct : t.calls[i]? = some c)
    (hstep : c.step v r s.shared = some (sh', c')) (hwait : c.phase ≠ .waitRoom)
    (hclear : c.phase ≠ .clearFlags) :
    ∃ t', (system w r).Reaches (RoomInOrder r) t t' ∧
      Mirrors { s with shared := sh', calls := s.calls.set i c' } t' := by
  obtain ⟨flags, hshared⟩ := h.shared
  obtain ⟨d', hstep', heq⟩ := Call.step_congr w flags hwait hclear hstep
  have hs : (system w r).step t (.call i) =
      some { t with
        shared := { sh' with sringFlags := flags }
        calls := t.calls.set i d' } := by
    show t.calls[i]?.bind _ = _
    rw [hct, Option.bind_some, hshared, hstep', Option.map_some]
  have hclears : t.clears i → s.clears i := by simp [State.clears, hc, hct]
  exact ⟨_, .single (h.roomInOrder hclears hg) hs, h.set heq i⟩

/-- A call that is behind by a turn of the wait loop makes that turn, if it finds room. -/
theorem leave_loop {w : Variant} (h : Mirrors s t) (hg : RoomInOrder r s (.call i))
    (hd : t.calls[i]? = some { c with phase := .waitRoom }) (hphase : c.phase = .memsetBuff)
    (hroom : hasRoom r t.shared { c with phase := .waitRoom }) :
    ∃ t', (system w r).Reaches (RoomInOrder r) t t' ∧ Mirrors s t' ∧
      t'.calls[i]? = some c := by
  have hs : (system w r).step t (.call i) = some { t with calls := t.calls.set i c } := by
    show t.calls[i]?.bind _ = _
    rw [hd, Option.bind_some, Call.step, if_pos hroom, Option.map_some, ← hphase]
  have hclears : t.clears i → s.clears i := by simp [State.clears, hd]
  have heq : c.settled = Call.settled { c with phase := .waitRoom } := by
    rw [Call.settled_of_ne (by simp [hphase]) (by simp [hphase])]
    simp only [Call.settled]
    rw [← hphase]
  refine ⟨_, .single (h.roomInOrder hclears hg) hs, ?_, ?_⟩
  · exact (h.symm.set_left t.shared.sringFlags hd heq).symm
  · exact List.getElem?_set_self (List.getElem?_eq_some_iff.mp hd).1

/-- Every step of one state is matched by the other, provided that a call there which has been left
behind in the wait loop finds room. -/
theorem exists_step {w : Variant} {a : Label} (h : Mirrors s t) (hg : RoomInOrder r s a)
    (hs : (system v r).step s a = some s')
    (hroom : ∀ (i : ℕ) (d : Call), a = .call i → s.clears i → t.calls[i]? = some d →
      hasRoom r t.shared d) :
    ∃ t', (system w r).Reaches (RoomInOrder r) t t' ∧ Mirrors s' t' := by
  by_cases ha : ∃ i, a = .call i
  · obtain ⟨i, rfl⟩ := ha
    obtain ⟨c, sh', c', hc, hstep, rfl⟩ := step_call hs
    by_cases hwait : c.phase = .waitRoom
    · -- a turn of the loop is no step of the other copies
      rw [Call.step, hwait, Option.some.injEq, Prod.mk.injEq] at hstep
      obtain ⟨rfl, rfl⟩ := hstep
      refine ⟨t, .refl, h.set_left s.shared.sringFlags hc ?_⟩
      split
      · simp [Call.settled, hwait]
      · rfl
    by_cases hclear : c.phase = .clearFlags
    · -- nor is the test of the flag word
      rw [Call.step, hclear, Option.some.injEq, Prod.mk.injEq] at hstep
      obtain ⟨rfl, rfl⟩ := hstep
      have heq : Call.settled { c with phase := .returned } = c.settled := by
        simp [Call.settled, hclear]
      rw [Shared.clearFlags]
      split
      · exact ⟨t, .refl, h.set_left 0 hc heq⟩
      · exact ⟨t, .refl, h.set_left s.shared.sringFlags hc heq⟩
    have hreturned : c.phase ≠ .returned := fun heq => by simp [Call.step, heq] at hstep
    obtain ⟨d, hd, heq⟩ := h.exists_call hc
    obtain rfl | ⟨hphase, rfl⟩ := Call.eq_of_settled heq.symm hwait hclear hreturned
    · exact h.step_of_same hg hc hd hstep hwait hclear
    · have hclears : s.clears i := by simp [State.clears, hc, hphase]
      obtain ⟨t₁, hreach, h₁, hct⟩ := h.leave_loop hg hd hphase (hroom i _ rfl hclears hd)
      obtain ⟨t', hreach', h'⟩ := h₁.step_of_same hg hc hct hstep hwait hclear
      exact ⟨t', hreach.trans hreach', h'⟩
  · have hne : ∀ i, a ≠ .call i := fun i heq => ha ⟨i, heq⟩
    obtain ⟨t', hs', h'⟩ := h.step_of_kernel hne hs
    refine ⟨t', .single ⟨h.inOrder hg.1, ?_⟩ hs', h'⟩
    cases a with
    | call i => exact absurd rfl (hne i)
    | _ => trivial

end Mirrors

/-! ## The two directions -/

theorem InOrder.Inv.of_reaches {P : State → Label → Prop} (h : InOrder.Inv r base s p)
    (hP : ∀ s a, P s a → InOrder s a) (hreach : (system .gpuSvmDemo r).Reaches P s s') :
    ∃ q, InOrder.Inv r base s' q := by
  induction hreach with
  | refl => exact ⟨p, h⟩
  | tail _ hnext ih =>
    obtain ⟨q, hinv⟩ := ih
    obtain ⟨a, hg, hs⟩ := hnext
    exact hinv.step (hP _ _ hg) hs

/-- A step with room is matched by `gpu_svm_demo`, whose loop finds the room. -/
theorem exists_demo_step {a : Label} (h : Mirrors s t) (hinv : InOrder.Inv r base t p)
    (hg : RoomInOrder r s a) (hs : (system v r).step s a = some s') :
    ∃ t', (system .gpuSvmDemo r).Reaches (RoomInOrder r) t t' ∧ Mirrors s' t' ∧
      ∃ q, InOrder.Inv r base t' q := by
  have hroom : ∀ (i : ℕ) (d : Call), a = .call i → s.clears i → t.calls[i]? = some d →
      hasRoom r t.shared d := by
    rintro i d rfl hclears hd
    have hlt : i < t.reqs.length + r.entries := h.reqs ▸ hg.2 hclears
    -- the call has not published, so the loop compares the true distance
    obtain ⟨c, hc, hphase⟩ := Option.map_eq_some_iff.mp hclears
    obtain ⟨d', hd', heq⟩ := h.exists_call hc
    obtain rfl : d = d' := Option.some.inj (hd.symm.trans hd')
    have hpub : d.published = false := by
      rw [Call.published_eq heq, Call.published, hphase]
    exact (hinv.hasRoom_iff hd (hinv.taken_le_ticket hd hpub)).mpr hlt
  obtain ⟨t', hreach, h'⟩ := h.exists_step (w := .gpuSvmDemo) hg hs hroom
  exact ⟨t', hreach, h', hinv.of_reaches (fun _ _ hg => hg.1) hreach⟩

/-- A run with room is matched by a run of `gpu_svm_demo`. -/
theorem exists_demo_run {s₀ : State} {as : List Label}
    (h : (system v r).Runs (RoomInOrder r) s₀ as s) :
    ∃ bs t, (system .gpuSvmDemo r).Runs (RoomInOrder r) s₀ bs t ∧ Mirrors s t := by
  obtain ⟨bs, t, hrun, hmir, -⟩ := h.exists_refines (A := system .gpuSvmDemo r)
    (R := fun s t => Mirrors s t ∧ ∃ p, InOrder.Inv r s₀.shared.sringTail t p) (t := s₀)
    (fun hinit => ⟨hinit, .refl s₀, 0, .of_init hinit⟩)
    fun _ _ _ _ ⟨hmir, _, hinv⟩ hg hs => exists_demo_step hmir hinv hg hs
  exact ⟨bs, t, hrun, hmir⟩

end GpuLibc
