import GpuLibc.Uring.Sequential

/-!
# The life of a message

An entry is published, taken and completed. The wait loop compares the ticket with the head, so a
slot is free for the next call as soon as its entry is taken, while the kernel needs the window
until it has performed the write and the cookie until it has posted the completion. In the runs
that wait for those two steps every message is written as it was passed; without that, a call
overwrites a message that is still to be written, even when the calls do not overlap.
-/

namespace GpuLibc

open ByteMemory

/-- A call clears its window only after the writes of the taken requests in its slot, and stores
the tail only after their completions. -/
def slotReleased (r : Ring) (s : State) : Label → Prop
  | .call i => ∀ c ∈ s.calls[i]?, ∀ q ∈ s.reqs, q.sqe.userData = (r.idx c.tail).toNat →
      (c.phase = .memsetBuff → q.text ≠ none) ∧ (c.phase = .storeTail → q.completed = true)
  | _ => True

instance (r : Ring) (s : State) : ∀ a, Decidable (slotReleased r s a)
  | .call i => inferInstanceAs (Decidable (∀ c ∈ s.calls[i]?, ∀ q ∈ s.reqs, _ → _ ∧ _))
  | .claim _ | .take | .write _ | .complete _ | .poller _ => inferInstanceAs (Decidable True)

/-- Tickets are published in order, and slots are reused only when the kernel is done with them. -/
def Released (r : Ring) (s : State) (a : Label) : Prop := InOrder s a ∧ slotReleased r s a

instance (r : Ring) (s : State) (a : Label) : Decidable (Released r s a) :=
  inferInstanceAs (Decidable (_ ∧ _))

/-- The call with index `i` has published, and its request has not completed. -/
def State.Outstanding (s : State) (i : ℕ) (c : Call) : Prop :=
  c.published = true ∧ ∀ q, s.reqs[i]? = some q → q.completed = false

/-- Every request is the entry of its call and writes that call's message, and the calls published
or taken but not completed have slots, hence windows and cookies, of their own. -/
structure MessagesIntact (r : Ring) (s : State) : Prop where
  entries : ∀ (j : ℕ) (q : Request), s.reqs[j]? = some q →
    ∃ c, s.calls[j]? = some c ∧ q.entry = c.entry r
  texts : ∀ (j : ℕ) (q : Request) (c : Call) (text : List Byte), s.reqs[j]? = some q →
    s.calls[j]? = some c → q.text = some text → text = c.msg.bytes
  slots : ∀ (i j : ℕ) (c d : Call), s.calls[i]? = some c → s.calls[j]? = some d → i ≠ j →
    s.Outstanding i c → s.Outstanding j d →
      r.idx c.tail ≠ r.idx d.tail ∧ Apart (r.buff c.tail) msgBufSize (r.buff d.tail) msgBufSize

/-- Replacing a request by one that has completed if it had before leaves no more calls
outstanding. -/
theorem State.Outstanding.of_set {s : State} {shared : Shared} {posted : List Cqe} {i j : ℕ}
    {c : Call} {q q' : Request}
    (h : ({ s with shared, posted, reqs := s.reqs.set j q' } : State).Outstanding i c)
    (hq : s.reqs[j]? = some q) (hcompleted : q'.completed = false → q.completed = false) :
    s.Outstanding i c := by
  refine ⟨h.1, fun e he => ?_⟩
  by_cases hij : i = j
  · subst hij
    obtain rfl : q = e := Option.some.inj (hq.symm.trans he)
    exact hcompleted (h.2 q' (List.getElem?_set_self (List.getElem?_eq_some_iff.mp hq).1))
  · refine h.2 e ?_
    show (s.reqs.set j q')[i]? = some e
    rw [List.getElem?_set_ne (Ne.symm hij), he]

/-- A call has touched its slot after a step if it had before or if the step cleared the window. -/
theorem Call.step_touched {v : Variant} {r : Ring} {sh sh' : Shared} {c c' : Call}
    (h : c.step v r sh = some (sh', c')) (ht : c'.touched = true) :
    c.touched = true ∨ c.phase = .memsetBuff := by
  cases hphase : c.phase <;> simp only [Call.step, hphase, Option.some.injEq, Prod.mk.injEq] at h
  case waitRoom =>
    obtain ⟨-, rfl⟩ := h
    split at ht <;> simp_all [Call.touched]
  all_goals simp_all [Call.touched]

namespace Released

/-- What holds of the requests in a run that releases slots, next to `InOrder.Inv`. -/
structure Inv (r : Ring) (s : State) : Prop where
  text : ∀ (j : ℕ) (q : Request) (c : Call) (text : List Byte), s.reqs[j]? = some q →
    s.calls[j]? = some c → q.text = some text → text = c.msg.bytes
  -- until it is written, a request finds its window as it was when the entry was taken
  window : ∀ (j : ℕ) (q : Request), s.reqs[j]? = some q → q.text = none →
    read s.shared.mem q.sqe.addr msgBufSize = q.window
  apart : ∀ (i j : ℕ) (c : Call) (q : Request), s.calls[i]? = some c → s.reqs.length ≤ i →
    c.touched = true → s.reqs[j]? = some q → q.text = none → q.sqe.userData ≠ (r.idx c.tail).toNat
  slots : ∀ (i j : ℕ) (c d : Call), s.calls[i]? = some c → s.calls[j]? = some d → i ≠ j →
    s.Outstanding i c → s.Outstanding j d → r.idx c.tail ≠ r.idx d.tail

variable {r : Ring} {base : Word} {s s' : State} {p i j : ℕ} {c : Call}

namespace Inv

theorem of_init (h : Initial s) : Inv r s where
  text := by simp [h.reqs]
  window := by simp [h.reqs]
  apart := by simp [h.reqs]
  slots := by simp [h.calls]

theorem claim (h : Inv r s) {v : Variant} {msg : Message} (hord : InOrder.Inv r base s p)
    (hs : (system v r).step s (.claim msg) = some s') : Inv r s' := by
  obtain rfl := step_claim hs
  have hnew : v.afterClaim = .waitRoom ∨ v.afterClaim = .memsetBuff := by
    cases v <;> simp [Variant.afterClaim]
  refine { text := ?text, window := h.window, apart := ?apart, slots := ?slots }
  case text =>
    intro j q c text hq hc
    obtain ⟨d, hd, -, -⟩ := hord.exists_call hq
    -- no request is the entry of a call that has just started
    rcases getElem?_concat_cases hc with ⟨rfl, -⟩ | ⟨-, hc⟩
    · simp at hd
    · exact h.text j q c text hq hc
  case apart =>
    intro i j c q hc hi ht
    rcases getElem?_concat_cases hc with ⟨rfl, rfl⟩ | ⟨-, hc⟩
    · rcases hnew with hnew | hnew <;> simp [Call.touched, hnew] at ht
    · exact h.apart i j c q hc hi ht
  case slots =>
    intro i j c d hc hd hij hcout hdout
    -- the new call has not published
    have hold : ∀ (k : ℕ) (e : Call),
        (s.calls ++ [{ msg, tail := s.shared.sqTailCache, phase := v.afterClaim }])[k]? = some e →
          e.published = true → s.calls[k]? = some e := by
      intro k e he hp
      rcases getElem?_concat_cases he with ⟨rfl, rfl⟩ | ⟨-, he⟩
      · rcases hnew with hnew | hnew <;> simp [Call.published, hnew] at hp
      · exact he
    exact h.slots i j c d (hold i c hc hcout.1) (hold j d hd hdout.1) hij hcout hdout

/-- A step of a call leaves the window of every request that is still to be written alone. -/
theorem slotEq_of_step (h : Inv r s) {v : Variant} {sh' : Shared} {c' d : Call} {q : Request}
    (hord : InOrder.Inv r base s p) (hg : slotReleased r s (.call i))
    (hc : s.calls[i]? = some c) (hstep : c.step v r s.shared = some (sh', c'))
    (hq : s.reqs[j]? = some q) (htext : q.text = none) (hentry : q.entry = d.entry r) :
    SlotEq r d.tail s.shared sh' := by
  have hcookie := Request.userData_eq hentry
  refine Call.step_slotEq hstep fun hfill heq => ?_
  -- the cookie is the slot, so a step on the same slot contradicts the reuse condition
  rw [heq] at hcookie
  obtain ⟨hpub, -, ht | hphase⟩ := Call.of_filling hfill
  · exact h.apart i j c q hc (hord.taken_le_ticket hc hpub) ht hq htext hcookie
  · exact (hg c hc q (List.mem_of_getElem? hq) hcookie).1 hphase htext

/-- A call that publishes holds a slot that no outstanding call holds. -/
theorem idx_ne_of_outstanding (h : Inv r s) {v : Variant} {sh' : Shared} {c' d : Call}
    (hord : InOrder.Inv r base s p) (hg : slotReleased r s (.call i))
    (hc : s.calls[i]? = some c) (hstep : c.step v r s.shared = some (sh', c'))
    (hd : s.calls[j]? = some d) (hij : i ≠ j) (hcout : s.Outstanding i c')
    (hdout : s.Outstanding j d) : r.idx c.tail ≠ r.idx d.tail := by
  rcases (Call.step_published hstep).mp hcout.1 with hpub | hphase
  · exact h.slots i j c d hc hd hij ⟨hpub, hcout.2⟩ hdout
  · -- `c` publishes in this step; the entry of `d` is either taken or still in the ring
    rcases Nat.lt_or_ge j s.reqs.length with hj | hj
    · have hq : s.reqs[j]? = some s.reqs[j] := List.getElem?_eq_getElem hj
      obtain ⟨e, he, hentry, -⟩ := hord.exists_call hq
      obtain rfl : d = e := Option.some.inj (hd.symm.trans he)
      intro heq
      have hcookie : s.reqs[j].sqe.userData = (r.idx c.tail).toNat := by
        rw [heq, Request.userData_eq hentry]
      have hdone := (hg c hc _ (List.mem_of_getElem? hq) hcookie).2 hphase
      simp [hdout.2 _ hq] at hdone
    · have hi := hord.taken_le_ticket hc (Call.published_of_storeTail hphase)
      have hdp := Call.ne_waitRoom_of_published hdout.1
      exact hord.idx_ne hc hd hij (by simp [hphase]) hdp hi hj

theorem call (h : Inv r s) {v : Variant} (hord : InOrder.Inv r base s p)
    (hg : slotReleased r s (.call i)) (hs : (system v r).step s (.call i) = some s') :
    Inv r s' := by
  obtain ⟨c, sh', c', hc, hstep, rfl⟩ := step_call hs
  obtain ⟨hmsg, htail⟩ := Call.step_args hstep
  refine { text := ?text, window := ?window, apart := ?apart, slots := ?slots }
  case text =>
    intro j q d text hq hd htext
    rcases getElem?_set_cases hd with ⟨rfl, rfl⟩ | ⟨-, hd⟩
    · rw [hmsg]
      exact h.text j q c text hq hc htext
    · exact h.text j q d text hq hd htext
  case window =>
    -- the step stays away from the window that the request reads
    intro j q hq htext
    obtain ⟨d, -, hentry, -⟩ := hord.exists_call hq
    have hslot := h.slotEq_of_step hord hg hc hstep hq htext hentry
    have haddr : q.sqe.addr = r.buff d.tail := by
      rw [Request.sqe_eq hentry]
      rfl
    rw [haddr, hslot.window, ← haddr]
    exact h.window j q hq htext
  case apart =>
    intro k j d q hd hk ht hq htext
    rcases getElem?_set_cases hd with ⟨rfl, rfl⟩ | ⟨-, hd⟩
    · rw [htail]
      rcases Call.step_touched hstep ht with ht | hphase
      · exact h.apart k j c q hc hk ht hq htext
      · -- the call has just cleared its window, after the writes of this slot
        intro hcookie
        exact (hg c hc q (List.mem_of_getElem? hq) hcookie).1 hphase htext
    · exact h.apart k j d q hd hk ht hq htext
  case slots =>
    intro k j d e hd he hkj hdout heout
    -- the call that steps may be the first or the second of the two
    rcases getElem?_set_cases hd with ⟨rfl, rfl⟩ | ⟨-, hd₀⟩
    · rcases getElem?_set_cases he with ⟨rfl, -⟩ | ⟨-, he₀⟩
      · exact absurd rfl hkj
      · rw [htail]
        exact h.idx_ne_of_outstanding hord hg hc hstep he₀ hkj hdout heout
    · rcases getElem?_set_cases he with ⟨rfl, rfl⟩ | ⟨-, he₀⟩
      · rw [htail]
        exact (h.idx_ne_of_outstanding hord hg hc hstep hd₀ hkj.symm heout hdout).symm
      · exact h.slots k j d e hd₀ he₀ hkj hdout heout

theorem take (h : Inv r s) {v : Variant} (hord : InOrder.Inv r base s p)
    (hs : (system v r).step s .take = some s') : Inv r s' := by
  have hlt := hord.lt_of_step_take hs
  obtain ⟨-, -, rfl⟩ := step_take hs
  have hle := hord.le_claimed
  have hhead : s.calls[s.reqs.length]? = some s.calls[s.reqs.length] :=
    List.getElem?_eq_getElem (by omega)
  refine { text := ?text, window := ?window, apart := ?apart, slots := ?slots }
  case text =>
    intro j q c text hq hc htext
    rcases getElem?_concat_cases hq with ⟨-, rfl⟩ | ⟨-, hq⟩
    · exact absurd htext (by simp [State.nextRequest])
    · exact h.text j q c text hq hc htext
  case window =>
    intro j q hq htext
    rcases getElem?_concat_cases hq with ⟨-, rfl⟩ | ⟨-, hq⟩
    · -- the window of the new request is what stands there now
      rfl
    · exact h.window j q hq htext
  case apart =>
    intro i j c q hc hi ht hq htext
    simp only [List.length_append, List.length_singleton] at hi
    rcases getElem?_concat_cases hq with ⟨-, rfl⟩ | ⟨-, hq⟩
    · -- the call just taken and call `i` are both within the ring
      have hentry := hord.nextRequest_entry hlt hhead
      have hpub := (hord.published _ _ hhead).mpr hlt
      have hne := hord.idx_ne hhead hc (by omega) (Call.ne_waitRoom_of_published hpub)
        (Call.ne_waitRoom_of_touched ht) le_rfl (by omega)
      rw [Request.userData_eq hentry]
      exact fun heq => hne (BitVec.eq_of_toNat_eq heq)
    · exact h.apart i j c q hc (by omega) ht hq htext
  case slots =>
    intro i j c d hc hd hij hcout hdout
    -- a call outstanding now was outstanding when its entry was still in the ring
    have hold : ∀ (k : ℕ) (q : Request), s.reqs[k]? = some q →
        (s.reqs ++ [s.nextRequest r])[k]? = some q := by
      intro k q hq
      rw [List.getElem?_append_left (List.getElem?_eq_some_iff.mp hq).1, hq]
    exact h.slots i j c d hc hd hij ⟨hcout.1, fun q hq => hcout.2 q (hold i q hq)⟩
      ⟨hdout.1, fun q hq => hdout.2 q (hold j q hq)⟩

/-- The write of a request reads the message of its call. -/
theorem write (h : Inv r s) {v : Variant} (hord : InOrder.Inv r base s p)
    (hs : (system v r).step s (.write j) = some s') : Inv r s' := by
  obtain ⟨q, hq, hnone, rfl⟩ := step_write hs
  obtain ⟨c, hc, hentry, -⟩ := hord.exists_call hq
  have hread : read s.shared.mem q.sqe.addr q.sqe.len = c.msg.bytes := by
    have hlen : q.sqe.len = c.msg.bytes.length := by
      rw [Request.sqe_eq hentry]
      rfl
    -- the kernel reads as many bytes as the entry says, from a window that is intact
    calc read s.shared.mem q.sqe.addr q.sqe.len
        = (read s.shared.mem q.sqe.addr msgBufSize).take q.sqe.len := by
          rw [take_read _ (hlen ▸ c.msg.short.le)]
      _ = c.msg.window.take c.msg.bytes.length := by
          rw [h.window j q hq hnone, Request.window_eq hentry, hlen]
      _ = c.msg.bytes := c.msg.take_window
  refine { text := ?text, window := ?window, apart := ?apart, slots := ?slots }
  case text =>
    intro k e d text he hd htext
    rcases getElem?_set_cases he with ⟨rfl, rfl⟩ | ⟨-, he⟩
    · obtain rfl : c = d := Option.some.inj (hc.symm.trans hd)
      exact (Option.some.inj htext).symm.trans hread
    · exact h.text k e d text he hd htext
  case window =>
    intro k e he htext
    rcases getElem?_set_cases he with ⟨rfl, rfl⟩ | ⟨-, he⟩
    · cases htext
    · exact h.window k e he htext
  case apart =>
    intro i k d e hd hi ht he htext
    rw [List.length_set] at hi
    rcases getElem?_set_cases he with ⟨rfl, rfl⟩ | ⟨-, he⟩
    · cases htext
    · exact h.apart i k d e hd hi ht he htext
  case slots =>
    intro i k d e hd he hik hdout heout
    exact h.slots i k d e hd he hik (.of_set hdout hq id) (.of_set heout hq id)

theorem complete (h : Inv r s) {v : Variant}
    (hs : (system v r).step s (.complete j) = some s') : Inv r s' := by
  obtain ⟨q, text, hq, hqtext, hnot, rfl⟩ := step_complete hs
  refine { text := ?text, window := ?window, apart := ?apart, slots := ?slots }
  case text =>
    intro k e d text he hd htext
    -- a completion changes neither the text nor the entry of its request
    rcases getElem?_set_cases he with ⟨rfl, rfl⟩ | ⟨-, he⟩
    · exact h.text k q d text hq hd htext
    · exact h.text k e d text he hd htext
  case window =>
    intro k e he htext
    rcases getElem?_set_cases he with ⟨rfl, rfl⟩ | ⟨-, he⟩
    · exact h.window k q hq htext
    · exact h.window k e he htext
  case apart =>
    intro i k d e hd hi ht he htext
    rw [List.length_set] at hi
    rcases getElem?_set_cases he with ⟨rfl, rfl⟩ | ⟨-, he⟩
    · exact h.apart i k d q hd hi ht hq htext
    · exact h.apart i k d e hd hi ht he htext
  case slots =>
    -- fewer calls are outstanding than before
    intro i k d e hd he hik hdout heout
    exact h.slots i k d e hd he hik (.of_set hdout hq fun _ => hnot)
      (.of_set heout hq fun _ => hnot)

theorem step (h : Inv r s) (hord : InOrder.Inv r base s p) {a : Label} (hg : Released r s a)
    (hs : (system .gpuSvmDemo r).step s a = some s') : Inv r s' := by
  cases a with
  | claim msg => exact h.claim hord hs
  | call i => exact h.call hord hg.2 hs
  | take => exact h.take hord hs
  | write j => exact h.write hord hs
  | complete j => exact h.complete hs
  | poller a =>
    rw [step_poller hs]
    exact ⟨h.text, h.window, h.apart, h.slots⟩

end Inv

theorem inv_of_runs {s₀ : State} {as : List Label}
    (h : (system .gpuSvmDemo r).Runs (Released r) s₀ as s) :
    Inv r s ∧ ∃ p, InOrder.Inv r s₀.shared.sringTail s p :=
  h.invariant (I := fun s => Inv r s ∧ ∃ p, InOrder.Inv r s₀.shared.sringTail s p)
    (fun hinit => ⟨Inv.of_init hinit, 0, InOrder.Inv.of_init hinit⟩)
    fun _ _ _ ⟨hinv, _, hord⟩ hg hs => ⟨hinv.step hord hg hs, hord.step hg.1 hs⟩

end Released

/-- In a run that reuses slots only when the kernel is done with them, every message is written as
it was passed, and no two outstanding calls share a slot. -/
theorem messagesIntact_of_released {r : Ring} {s₀ s : State} {as : List Label}
    (h : (system .gpuSvmDemo r).Runs (Released r) s₀ as s) : MessagesIntact r s := by
  obtain ⟨hinv, p, hord⟩ := Released.inv_of_runs h
  refine ⟨fun j q hq => ?_, hinv.text, fun i j c d hc hd hij hcout hdout => ?_⟩
  · obtain ⟨c, hc, hentry, -⟩ := hord.exists_call hq
    exact ⟨c, hc, hentry⟩
  · have hne := hinv.slots i j c d hc hd hij hcout hdout
    exact ⟨hne, r.buff_apart hne⟩

/-- Seventeen calls, one after the other, each of the first completed before the next starts. -/
def completedCalls : List Label :=
  rounds 16 ++ [.claim helloB] ++ callSteps 16 ++ [.take, .write 16]

theorem messagesIntact_completedCalls :
    ∃ s, (system .gpuSvmDemo demoRing).Runs (Released demoRing) .afterSetup completedCalls s ∧
      MessagesIntact demoRing s ∧ s.reqs[16]?.bind Request.text = some helloB.bytes := by
  have hrun : (system .gpuSvmDemo demoRing).Runs (Released demoRing) .afterSetup
      completedCalls _ := .of_runUnder State.initial_afterSetup (by decide +kernel)
  exact ⟨_, hrun, messagesIntact_of_released hrun, by decide +kernel⟩

/-- Sixteen calls, one after the other; the kernel takes the first entry, and the next call reuses
its slot before the write. -/
def overwritten : List Label :=
  (List.range 16).flatMap (fun i => [.claim helloA] ++ callSteps i) ++ [.take] ++
    [.claim helloB] ++ callSteps 16 ++ [.write 0]

/-- Even calls that do not overlap write over a message that the kernel has not written yet. -/
theorem not_messagesIntact : ¬ ∀ (r : Ring) (s₀ s : State) (as : List Label),
    (system .gpuSvmDemo r).Runs sequential s₀ as s → MessagesIntact r s := by
  intro h
  have hrun := h demoRing .afterSetup _ overwritten
    (.of_runUnder State.initial_afterSetup (by decide +kernel))
  have htext : ((((system .gpuSvmDemo demoRing).runUnder sequential .afterSetup overwritten).get
      (by decide +kernel)).reqs[0]?.bind Request.text) = some helloB.bytes := by decide +kernel
  obtain ⟨q, hq, hqtext⟩ := Option.bind_eq_some_iff.mp htext
  have heq := hrun.texts 0 q { msg := helloA, tail := 0, phase := .returned } helloB.bytes hq
    (by decide +kernel) hqtext
  exact absurd heq (by decide)

end GpuLibc
