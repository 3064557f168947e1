import GpuLibc.Uring.Footprint
import GpuLibc.Uring.Sequential
import GpuLibc.Uring.SingleCall
import Mathlib.Data.List.Induction

/-!
# Concurrent calls as consecutive calls

Calls of `gpu_svm_demo` that publish in ticket order may overlap in any way: once they have all
returned, the ring, the entries and the message pool hold what the same messages leave when they
are passed one after the other, in the order of the tickets.

* `LastWins`: each slot holds the last message that went there, everything else is unchanged.
* `LastWins.perrors`: that is what consecutive calls leave.
* `Serial.Inv`: the same for calls in progress, where a slot belongs to the last call that has
  touched it.
* `serializable_of_inOrder`: the two memories are equal.
-/

namespace GpuLibc

open ByteMemory Counter

attribute [ext] Shared

variable {v : Variant} {r : Ring} {base t : Word} {sh₀ sh sh' : Shared} {msgs : List Message}

/-- Calls made one after the other. -/
def Shared.perrors (r : Ring) (msgs : List Message) (sh : Shared) : Shared :=
  msgs.foldl (fun sh msg => sh.perror r msg) sh

theorem Shared.perrors_concat (r : Ring) (msgs : List Message) (msg : Message) (sh : Shared) :
    sh.perrors r (msgs ++ [msg]) = (sh.perrors r msgs).perror r msg :=
  List.foldl_concat ..

/-! ## The last message of each slot -/

/-- The slot of the ticket holds the message, its entry and its place in the array. -/
structure Complete (r : Ring) (sh : Shared) (t : Word) (msg : Message) : Prop where
  window : read sh.mem (r.buff t) msgBufSize = msg.window
  sqe : sh.sqes (r.idx t).toNat = r.sqe t msg
  array : sh.sringArray (r.idx t).toNat = r.idx t

/-- The memory after the messages have gone to the slots of the tickets from `base` on. -/
structure LastWins (r : Ring) (base : Word) (sh₀ : Shared) (msgs : List Message) (sh : Shared) :
    Prop where
  last : ∀ i msg, msgs[i]? = some msg →
    (∀ j, i < j → j < msgs.length → r.idx (after base j) ≠ r.idx (after base i)) →
      Complete r sh (after base i) msg
  fresh : ∀ t, (∀ i < msgs.length, r.idx (after base i) ≠ r.idx t) → SlotEq r t sh₀ sh
  outside : SameOutside r sh₀ sh

theorem SlotEq.trans {sh'' : Shared} (h : SlotEq r t sh sh') (h' : SlotEq r t sh' sh'') :
    SlotEq r t sh sh'' where
  window := h'.window.trans h.window
  sqe := h'.sqe.trans h.sqe
  array := h'.array.trans h.array

/-- Tickets with the same index name the same slot. -/
theorem Ring.buff_congr {t t' : Word} (h : r.idx t = r.idx t') : r.buff t = r.buff t' := by
  rw [r.buff_eq, r.buff_eq, h]

theorem SlotEq.congr {t' : Word} (h : SlotEq r t sh sh') (heq : r.idx t = r.idx t') :
    SlotEq r t' sh sh' := by
  have hbuff := Ring.buff_congr heq
  exact ⟨hbuff ▸ h.window, heq ▸ h.sqe, heq ▸ h.array⟩

theorem Complete.congr {msg : Message} (h : Complete r sh t msg) (heq : SlotEq r t sh sh') :
    Complete r sh' t msg where
  window := heq.window.trans h.window
  sqe := heq.sqe.trans h.sqe
  array := heq.array.trans h.array

/-- Two memories with the same message in a slot agree on it. -/
theorem Complete.slotEq {msg : Message} (h : Complete r sh t msg) (h' : Complete r sh' t msg) :
    SlotEq r t sh sh' where
  window := h'.window.trans h.window.symm
  sqe := h'.sqe.trans h.sqe.symm
  array := h'.array.trans h.array.symm

/-- Among the positions with a property there is a last one. -/
theorem exists_last {p : ℕ → Prop} {n : ℕ} (h : ∃ i < n, p i) :
    ∃ i < n, p i ∧ ∀ j, i < j → j < n → ¬ p j := by
  induction n with
  | zero => simp at h
  | succ n ih =>
    by_cases hn : p n
    · exact ⟨n, by omega, hn, fun j hj hlt => by omega⟩
    · obtain ⟨i, hi, hpi⟩ := h
      have hne : i ≠ n := fun heq => hn (heq ▸ hpi)
      obtain ⟨k, hk, hpk, hlast⟩ := ih ⟨i, by omega, hpi⟩
      refine ⟨k, by omega, hpk, fun j hj hlt => ?_⟩
      rcases Nat.lt_succ_iff_lt_or_eq.mp hlt with hlt | rfl
      · exact hlast j hj hlt
      · exact hn

/-- The messages determine every slot. -/
theorem LastWins.slotEq (h : LastWins r base sh₀ msgs sh) (h' : LastWins r base sh₀ msgs sh')
    (t : Word) : SlotEq r t sh sh' := by
  by_cases huse : ∃ i < msgs.length, r.idx (after base i) = r.idx t
  · obtain ⟨i, hi, hidx, hlast⟩ := exists_last huse
    have hmsg : msgs[i]? = some msgs[i] := List.getElem?_eq_getElem hi
    have hno : ∀ j, i < j → j < msgs.length → r.idx (after base j) ≠ r.idx (after base i) :=
      fun j hj hlt heq => hlast j hj hlt (heq.trans hidx)
    exact ((h.last i _ hmsg hno).slotEq (h'.last i _ hmsg hno)).congr hidx
  · have hno : ∀ i < msgs.length, r.idx (after base i) ≠ r.idx t :=
      fun i hi heq => huse ⟨i, hi, heq⟩
    -- no message went to the slot, which is as it was
    obtain ⟨hw, hs, ha⟩ := h.fresh t hno
    obtain ⟨hw', hs', ha'⟩ := h'.fresh t hno
    exact ⟨hw'.trans hw.symm, hs'.trans hs.symm, ha'.trans ha.symm⟩

theorem LastWins.sameOutside (h : LastWins r base sh₀ msgs sh)
    (h' : LastWins r base sh₀ msgs sh') : SameOutside r sh sh' where
  mem a ha := (h'.outside.mem a ha).trans (h.outside.mem a ha).symm
  sqes k hk := (h'.outside.sqes k hk).trans (h.outside.sqes k hk).symm
  array k hk := (h'.outside.array k hk).trans (h.outside.array k hk).symm

/-- A slot for every index of the ring. -/
theorem Ring.exists_ticket (r : Ring) {k : ℕ} (hk : k < r.entries) :
    ∃ t : Word, (r.idx t).toNat = k := by
  have hle := r.entries_le
  refine ⟨BitVec.ofNat 32 k, ?_⟩
  rw [r.toNat_idx, BitVec.toNat_ofNat, Nat.mod_eq_of_lt (by omega : k < 2 ^ 32),
    Nat.mod_eq_of_lt hk]

/-- Memories that agree on all slots and outside of them are equal. -/
theorem eq_of_slotEq (hslots : ∀ t, SlotEq r t sh sh') (hout : SameOutside r sh sh') :
    sh'.mem = sh.mem ∧ sh'.sqes = sh.sqes ∧ sh'.sringArray = sh.sringArray := by
  refine ⟨?_, ?_, ?_⟩
  · ext a
    by_cases ha : r.OutsideWindows a
    · rw [hout.mem a ha]
    · -- the window of the address, and its place there
      have hge : r.msgPool ≤ a := by
        unfold Ring.OutsideWindows at ha
        omega
      have hk : (a - r.msgPool) / msgBufSize < r.entries := by
        unfold Ring.OutsideWindows at ha
        rw [Nat.div_lt_iff_lt_mul (by decide)]
        omega
      obtain ⟨t, ht⟩ := r.exists_ticket hk
      have hcell : r.buff t + (a - r.msgPool) % msgBufSize = a := by
        have hdiv := Nat.div_add_mod' (a - r.msgPool) msgBufSize
        rw [r.buff_eq, ht]
        omega
      rw [← hcell, apply_eq_of_read_eq (hslots t).window (Nat.mod_lt _ (by decide))]
  · ext k
    rcases Nat.lt_or_ge k r.entries with hk | hk
    · obtain ⟨t, rfl⟩ := r.exists_ticket hk
      exact (hslots t).sqe
    · exact hout.sqes k hk
  · ext k
    rcases Nat.lt_or_ge k r.entries with hk | hk
    · obtain ⟨t, rfl⟩ := r.exists_ticket hk
      rw [(hslots t).array]
    · rw [hout.array k hk]

/-! ## Consecutive calls -/

/-- A call by itself leaves its message in its slot. -/
theorem Shared.complete_perror (r : Ring) (msg : Message) (sh : Shared) :
    Complete r (sh.perror r msg) sh.sqTailCache msg where
  window := read_copy_self (read_fill_self _ _ _ _) msg.short.le
  sqe := by rw [perror_sqes, Function.update_self]
  array := by rw [perror_sringArray, Function.update_self]

/-- A call by itself leaves every other slot alone. -/
theorem Shared.slotEq_perror (msg : Message) (hne : r.idx t ≠ r.idx sh.sqTailCache) :
    SlotEq r t sh (sh.perror r msg) := by
  have hapart := r.buff_apart hne
  have hidx : (r.idx t).toNat ≠ (r.idx sh.sqTailCache).toNat :=
    fun heq => hne (BitVec.eq_of_toNat_eq heq)
  refine ⟨?_, ?_, ?_⟩
  · show read (copy (fill sh.mem _ msgBufSize 0) _ msg.bytes) _ _ = _
    have hshort := msg.short
    rw [read_copy_of_apart (by unfold Apart at *; omega), read_fill_of_apart hapart]
  · rw [perror_sqes, Function.update_of_ne hidx]
  · rw [perror_sringArray, Function.update_of_ne hidx]

theorem Shared.sameOutside_perror (r : Ring) (msg : Message) (sh : Shared) :
    SameOutside r sh (sh.perror r msg) := by
  have hne : ∀ k, r.entries ≤ k → k ≠ (r.idx sh.sqTailCache).toNat := by
    intro k hk
    have hlt := r.idx_lt sh.sqTailCache
    omega
  refine ⟨fun a ha => ?_, fun k hk => ?_, fun k hk => ?_⟩
  · show copy (fill sh.mem _ msgBufSize 0) _ msg.bytes a = _
    rw [copy_apply_of_not_mem (ha.not_mem _ msg.short.le),
      fill_apply_of_not_mem (ha.not_mem _ le_rfl)]
  · rw [perror_sqes, Function.update_of_ne (hne k hk)]
  · rw [perror_sringArray, Function.update_of_ne (hne k hk)]

/-- One more message takes over its slot. -/
theorem LastWins.concat (h : LastWins r base sh₀ msgs sh)
    (hcache : sh.sqTailCache = after base msgs.length) (msg : Message) :
    LastWins r base sh₀ (msgs ++ [msg]) (sh.perror r msg) := by
  have hlen : (msgs ++ [msg]).length = msgs.length + 1 := by simp
  refine ⟨fun i m hi hno => ?_, fun t hno => ?_, h.outside.trans (Shared.sameOutside_perror ..)⟩
  · rcases getElem?_concat_cases hi with ⟨rfl, rfl⟩ | ⟨hlt, hi⟩
    · rw [← hcache]
      exact Shared.complete_perror ..
    · -- an earlier message keeps its slot unless the new one has the same
      have hne : r.idx (after base i) ≠ r.idx sh.sqTailCache :=
        hcache ▸ (hno msgs.length hlt (by omega)).symm
      have hslot := Shared.slotEq_perror msg hne
      exact (h.last i m hi fun j hj hjlt => hno j hj (by omega)).congr hslot
  · have hnew : r.idx t ≠ r.idx sh.sqTailCache := hcache ▸ (hno msgs.length (by omega)).symm
    exact (h.fresh t fun j hj => hno j (by omega)).trans (Shared.slotEq_perror msg hnew)

/-- What consecutive calls leave: the counters moved on, and each slot with its last message. -/
theorem LastWins.perrors (r : Ring) (sh₀ : Shared) (msgs : List Message) :
    LastWins r sh₀.sqTailCache sh₀ msgs (sh₀.perrors r msgs) ∧
      (sh₀.perrors r msgs).sqTailCache = after sh₀.sqTailCache msgs.length := by
  induction msgs using List.reverseRecOn with
  | nil =>
    exact ⟨⟨by simp, fun _ _ => ⟨rfl, rfl, rfl⟩, fun _ _ => rfl, fun _ _ => rfl, fun _ _ => rfl⟩,
      (after_zero _).symm⟩
  | append_singleton msgs msg ih =>
    obtain ⟨hlast, hcache⟩ := ih
    rw [Shared.perrors_concat]
    refine ⟨hlast.concat hcache msg, ?_⟩
    rw [(Shared.perror_words ..).1, hcache, after_add_one, List.length_append,
      List.length_singleton]

/-- The tail is the ticket counter once the calls have started in a ring where it was. -/
theorem Shared.sringTail_perrors (r : Ring) (sh₀ : Shared) (msgs : List Message)
    (htail : sh₀.sringTail = sh₀.sqTailCache) :
    (sh₀.perrors r msgs).sringTail = (sh₀.perrors r msgs).sqTailCache := by
  induction msgs using List.reverseRecOn with
  | nil => exact htail
  | append_singleton msgs msg _ =>
    rw [Shared.perrors_concat]
    rfl

/-! ## Calls in progress -/

variable {s₀ s s' : State} {c c' : Call} {p i j : ℕ}

/-- A call that fills its slot has touched it after the step. -/
theorem Call.touched_of_filling (h : c.step v r sh = some (sh', c')) (hf : c.filling = true) :
    c'.touched = true := by
  cases hphase : c.phase <;> simp only [Call.step, hphase, Option.some.injEq, Prod.mk.injEq] at h
  case waitRoom | clearFlags | returned => simp [filling, hphase] at hf
  case storeTail => obtain ⟨-, rfl⟩ := h; cases v <;> rfl
  all_goals obtain ⟨-, rfl⟩ := h; rfl

/-- A call that has touched its slot stays one that has. -/
theorem Call.touched_step (h : c.step v r sh = some (sh', c')) (ht : c.touched = true) :
    c'.touched = true := by
  cases hphase : c.phase <;> simp only [Call.step, hphase, Option.some.injEq, Prod.mk.injEq] at h
  case waitRoom | memsetBuff => simp [touched, hphase] at ht
  case returned => contradiction
  case storeTail => obtain ⟨-, rfl⟩ := h; cases v <;> rfl
  all_goals obtain ⟨-, rfl⟩ := h; rfl

theorem InOrder.Inv.eq_of_published {s : State} {p : ℕ} (h : InOrder.Inv r base s p)
    (hall : ∀ c ∈ s.calls, c.published = true) : p = s.calls.length := by
  refine le_antisymm h.le_claimed ?_
  by_contra hlt
  obtain ⟨c, hc, hpub⟩ := h.exists_unpublished (not_le.mp hlt)
  simp [hall c (List.mem_of_getElem? hc)] at hpub

namespace Serial

/-- A slot belongs to the last call that has touched it, or is as it was before all calls. -/
structure Inv (r : Ring) (sh₀ : Shared) (s : State) : Prop where
  last : ∀ (i : ℕ) (c : Call), s.calls[i]? = some c →
    (∀ (j : ℕ) (d : Call), i < j → s.calls[j]? = some d → r.idx d.tail = r.idx c.tail →
      d.touched = false) →
      Filled r s.shared c
  fresh : ∀ t, (∀ (i : ℕ) (c : Call), s.calls[i]? = some c → r.idx c.tail = r.idx t →
      c.touched = false) →
    SlotEq r t sh₀ s.shared
  outside : SameOutside r sh₀ s.shared

namespace Inv

theorem of_init (h : Initial s) : Inv r s.shared s where
  last := by simp [h.calls]
  fresh _ _ := ⟨rfl, rfl, rfl⟩
  outside := ⟨fun _ _ => rfl, fun _ _ => rfl, fun _ _ => rfl⟩

theorem claim {msg : Message} (h : Inv r sh₀ s)
    (hs : (system v r).step s (.claim msg) = some s') : Inv r sh₀ s' := by
  obtain rfl := step_claim hs
  have hold : ∀ {j : ℕ} {d : Call}, s.calls[j]? = some d →
      (s.calls ++ [{ msg, tail := s.shared.sqTailCache, phase := v.afterClaim }])[j]? = some d :=
    fun hd => by rw [List.getElem?_append_left (List.getElem?_eq_some_iff.mp hd).1, hd]
  refine ⟨fun i c hc hno => ?_, fun t hno => ?_, h.outside.mem, h.outside.sqes, h.outside.array⟩
  · rcases getElem?_concat_cases hc with ⟨-, rfl⟩ | ⟨-, hc⟩
    · -- the new call has put nothing into its slot yet
      cases v <;> trivial
    · exact h.last i c hc fun j d hij hd => hno j d hij (hold hd)
  · obtain ⟨hwindow, hsqe, harray⟩ := h.fresh t fun i c hc => hno i c (hold hc)
    exact ⟨hwindow, hsqe, harray⟩

/-- A step that leaves the calls and the slots alone. -/
theorem of_eq (h : Inv r sh₀ s) (hcalls : s'.calls = s.calls)
    (hshared : ∃ head flags,
      s'.shared = { s.shared with sringHead := head, sringFlags := flags }) : Inv r sh₀ s' := by
  obtain ⟨head, flags, hshared⟩ := hshared
  have hslot : ∀ t, SlotEq r t s.shared s'.shared := by
    intro t
    rw [hshared]
    exact ⟨rfl, rfl, rfl⟩
  have hout : SameOutside r s.shared s'.shared := by
    rw [hshared]
    exact ⟨fun _ _ => rfl, fun _ _ => rfl, fun _ _ => rfl⟩
  refine ⟨fun i c hc hno => ?_, fun t hno => ?_, h.outside.trans hout⟩
  · rw [hcalls] at hc hno
    exact (h.last i c hc hno).congr (hslot _)
  · rw [hcalls] at hno
    exact (h.fresh t hno).trans (hslot t)

/-- While a call fills its slot, no later call has touched the slot, nor does another call own
it. -/
theorem slotEq_of_step (hord : InOrder.Inv r base s p) {sh' : Shared} {d : Call}
    (hc : s.calls[i]? = some c) (hstep : c.step v r s.shared = some (sh', c'))
    (hd : s.calls[j]? = some d) (hij : j ≠ i) (hdp : d.phase ≠ .waitRoom)
    (hno : ∀ (k : ℕ) (e : Call), j < k → (s.calls.set i c')[k]? = some e →
      r.idx e.tail = r.idx d.tail →
      e.touched = false) : SlotEq r d.tail s.shared sh' := by
  refine Call.step_slotEq hstep fun hfill heq => ?_
  obtain ⟨hpub, hcp, -⟩ := Call.of_filling hfill
  have hi := hord.taken_le_ticket hc hpub
  rcases Nat.lt_or_ge j i with hlt | hge
  · -- the later call has touched the slot after this step
    have hc' : (s.calls.set i c')[i]? = some c' :=
      List.getElem?_set_self (List.getElem?_eq_some_iff.mp hc).1
    have htouched := hno i c' hlt hc' (by rw [(Call.step_args hstep).2, heq])
    simp [Call.touched_of_filling hstep hfill] at htouched
  · exact hord.idx_ne hd hc hij hdp hcp (by omega) hi heq

theorem call (h : Inv r sh₀ s) (hord : InOrder.Inv r base s p)
    (hs : (system v r).step s (.call i) = some s') : Inv r sh₀ s' := by
  obtain ⟨c, sh', c', hc, hstep, rfl⟩ := step_call hs
  obtain ⟨-, htail⟩ := Call.step_args hstep
  have hlt := (List.getElem?_eq_some_iff.mp hc).1
  have hc' : (s.calls.set i c')[i]? = some c' := List.getElem?_set_self hlt
  -- an untouched call of the new state was one of the old state
  have hback : ∀ (j : ℕ) (d : Call), s.calls[j]? = some d →
      ∃ d' : Call, (s.calls.set i c')[j]? = some d' ∧
      d'.tail = d.tail ∧ (d'.touched = false → d.touched = false) := by
    intro j d hd
    by_cases hij : j = i
    · subst hij
      obtain rfl : c = d := Option.some.inj (hc.symm.trans hd)
      refine ⟨c', hc', htail, fun hun => ?_⟩
      by_contra ht
      simp [Call.touched_step hstep (by simpa using ht)] at hun
    · exact ⟨d, by rw [List.getElem?_set_ne (Ne.symm hij), hd], rfl, id⟩
  refine ⟨fun j d hd hno => ?_, fun t hno => ?_, h.outside.trans (Call.step_sameOutside hstep)⟩
  · have hno' : ∀ k e, j < k → s.calls[k]? = some e → r.idx e.tail = r.idx d.tail →
        e.touched = false := by
      intro k e hjk he heq
      obtain ⟨e', he', htail', htouched⟩ := hback k e he
      exact htouched (hno k e' hjk he' (by rw [htail', heq]))
    rcases getElem?_set_cases hd with ⟨rfl, rfl⟩ | ⟨hij, hd⟩
    · exact Call.step_filled hstep (h.last j c hc fun k e hjk he heq =>
        hno' k e hjk he (by rw [heq, htail]))
    · by_cases hdp : d.phase = .waitRoom
      · simp [Filled, hdp]
      · exact (h.last j d hd hno').congr (slotEq_of_step hord hc hstep hd hij hdp hno)
  · have hslot : SlotEq r t s.shared sh' := by
      refine Call.step_slotEq hstep fun hfill heq => ?_
      have htouched := hno i c' hc' (by rw [htail, heq])
      simp [Call.touched_of_filling hstep hfill] at htouched
    refine (h.fresh t fun j d hd heq => ?_).trans hslot
    obtain ⟨d', hd', htail', htouched⟩ := hback j d hd
    exact htouched (hno j d' hd' (by rw [htail', heq]))

/-- The invariant holds as long as the calls publish in ticket order. -/
theorem step {a : Label} (h : Inv r sh₀ s) (hord : InOrder.Inv r base s p)
    (hs : (system v r).step s a = some s') : Inv r sh₀ s' := by
  cases a with
  | claim msg => exact h.claim hs
  | call i => exact h.call hord hs
  | take => obtain ⟨-, -, rfl⟩ := step_take hs; exact h.of_eq rfl ⟨_, _, rfl⟩
  | write j => obtain ⟨q, -, -, rfl⟩ := step_write hs; exact h.of_eq rfl ⟨_, _, rfl⟩
  | complete j => obtain ⟨q, _, -, -, -, rfl⟩ := step_complete hs; exact h.of_eq rfl ⟨_, _, rfl⟩
  | poller a => rw [step_poller hs]; exact h.of_eq rfl ⟨_, _, rfl⟩

/-- When all calls have published, each slot holds its last message. -/
theorem lastWins (h : Inv r sh₀ s) (hord : InOrder.Inv r base s p)
    (hall : ∀ c ∈ s.calls, c.published = true) :
    LastWins r base sh₀ (s.calls.map Call.msg) s.shared := by
  refine ⟨fun i msg hi hno => ?_, fun t hno => ?_, h.outside⟩
  · rw [List.getElem?_map] at hi
    obtain ⟨c, hc, rfl⟩ := Option.map_eq_some_iff.mp hi
    have htail := hord.ticket i c hc
    have hfilled : Filled r s.shared c := by
      refine h.last i c hc fun j d hij hd heq => ?_
      -- a later call in the slot is ruled out
      rw [hord.ticket j d hd, htail] at heq
      exact absurd heq (hno j hij (by simpa using (List.getElem?_eq_some_iff.mp hd).1))
    obtain ⟨hwindow, hsqe, harray⟩ :=
      hfilled.of_published (hall c (List.mem_of_getElem? hc))
    rw [← htail]
    exact ⟨hwindow, hsqe, harray⟩
  · refine h.fresh t fun i c hc heq => ?_
    rw [hord.ticket i c hc] at heq
    exact absurd heq (hno i (by simpa using (List.getElem?_eq_some_iff.mp hc).1))

end Inv

/-- Calls that have overlapped leave what the same messages leave one after the other. -/
theorem shared_eq (hord : InOrder.Inv r s₀.shared.sringTail s p) (hinit : Initial s₀)
    (h : Inv r s₀.shared s) (hall : ∀ c ∈ s.calls, c.published = true) :
    s.shared = { s₀.shared.perrors r (s.calls.map Call.msg) with
      sringHead := s.shared.sringHead, sringFlags := s.shared.sringFlags } := by
  obtain ⟨hlast, hcache⟩ := LastWins.perrors r s₀.shared (s.calls.map Call.msg)
  have htail := Shared.sringTail_perrors r s₀.shared (s.calls.map Call.msg) hinit.cache.symm
  rw [hinit.cache] at hlast hcache
  have hconc := h.lastWins hord hall
  obtain ⟨hmem, hsqes, harray⟩ := eq_of_slotEq (hlast.slotEq hconc) (hlast.sameOutside hconc)
  have hp := hord.eq_of_published hall
  rw [List.length_map] at hcache
  apply Shared.ext
  · rw [hcache]
    exact hord.cache
  · rfl
  · rw [htail, hcache]
    exact hp ▸ hord.tail
  · rfl
  · exact harray
  · exact hsqes
  · exact hmem

end Serial

/-- However calls that publish in ticket order overlap, once they have returned the memory is the
one that the same messages leave when they are passed one after the other in ticket order. -/
theorem serializable_of_inOrder {as : List Label}
    (h : (system .gpuSvmDemo r).Runs InOrder s₀ as s) (hquiet : s.Quiescent) :
    s.shared = { s₀.shared.perrors r (s.calls.map Call.msg) with
      sringHead := s.shared.sringHead, sringFlags := s.shared.sringFlags } := by
  have hinv := h.invariant
    (I := fun s => Serial.Inv r s₀.shared s ∧ ∃ p, InOrder.Inv r s₀.shared.sringTail s p)
    (fun hinit => ⟨.of_init hinit, 0, .of_init hinit⟩)
    fun _ _ _ ⟨hser, _, hord⟩ hg hs => ⟨hser.step hord hs, hord.step hg hs⟩
  obtain ⟨hser, p, hord⟩ := hinv
  exact Serial.shared_eq hord h.init hser fun c hc => hquiet.published hc

/-- Two calls that alternate step by step. -/
def alternating : List Label :=
  [.claim helloA, .claim helloB] ++ (List.replicate 7 [.call 0, .call 1]).flatten

theorem serializable_alternating :
    ∃ s : State, (system .gpuSvmDemo demoRing).Runs InOrder .afterSetup alternating s ∧
      s.shared.mem = (Shared.zero.perrors demoRing [helloA, helloB]).mem := by
  have hrun : (system .gpuSvmDemo demoRing).Runs InOrder .afterSetup alternating _ :=
    .of_runUnder State.initial_afterSetup (by decide +kernel)
  have hmem := congrArg Shared.mem (serializable_of_inOrder hrun (by decide +kernel))
  exact ⟨_, hrun, hmem⟩

end GpuLibc
