import GpuLibc.Uring.PublishedTail
import Mathlib.Data.List.Nodup

/-!
# The order of the stores

Every call stores the tail once, with its own ticket plus one, whenever it gets there. The order in
which the calls of a run do so decides what becomes of their messages, in all copies of the
routine and with any number of calls in progress.

* `storeOrder`: the calls in the order of their stores.
* `storeOrder_spec`: the tail is the last store, and the conditions on runs used elsewhere say
  that the order is sorted, or that it counts up without a gap.
* `taken_at_rest`: once the kernel has caught up, it has taken the tickets up to that of the call
  that stored last.
-/

namespace GpuLibc

open Counter

variable {v : Variant} {r : Ring} {base : Word} {s₀ s s' : State} {as : List Label}
  {order : List ℕ} {i : ℕ}

/-- The call that stores the tail in a step. -/
def storeEvents (s : State) : Label → List ℕ
  | .call i => if s.publishes i then [i] else []
  | .claim _ | .take | .write _ | .complete _ | .poller _ => []

/-- The calls of a run in the order of their stores. -/
def storeOrder (v : Variant) (r : Ring) (s₀ : State) (as : List Label) : List ℕ :=
  (system v r).trace storeEvents s₀ as

/-- The tickets up to that of the last store. -/
def lastStored (order : List ℕ) : ℕ := order.getLast?.elim 0 (· + 1)

@[simp]
theorem lastStored_concat (order : List ℕ) (i : ℕ) : lastStored (order ++ [i]) = i + 1 := by
  simp [lastStored]

namespace StoreOrder

/-- The words of the ring after the stores in the given order. -/
structure Inv (base : Word) (s : State) (order : List ℕ) : Prop where
  cache : s.shared.sqTailCache = after base s.calls.length
  tail : s.shared.sringTail = after base (lastStored order)
  head : s.shared.sringHead = after base s.reqs.length
  ticket : ∀ (i : ℕ) (c : Call), s.calls[i]? = some c → c.tail = after base i
  mem_iff : ∀ i, i ∈ order ↔ ∃ c, s.calls[i]? = some c ∧ c.published = true
  nodup : order.Nodup

namespace Inv

theorem of_init (h : Initial s) : Inv s.shared.sringTail s [] where
  cache := by rw [h.calls, h.cache]; exact (after_zero _).symm
  tail := (after_zero _).symm
  head := by rw [h.reqs, h.head]; exact (after_zero _).symm
  ticket := by simp [h.calls]
  mem_iff := by simp [h.calls]
  nodup := List.nodup_nil

theorem claim (h : Inv base s order) {msg : Message}
    (hs : (system v r).step s (.claim msg) = some s') : Inv base s' order := by
  obtain rfl := step_claim hs
  refine
    { cache := ?cache, tail := h.tail, head := h.head, ticket := ?ticket, mem_iff := fun i => ?mem,
      nodup := h.nodup }
  case cache => rw [List.length_append, List.length_singleton, ← after_add_one, ← h.cache]
  case ticket =>
    intro i c hc
    rcases getElem?_concat_cases hc with ⟨rfl, rfl⟩ | ⟨-, hc⟩
    · exact h.cache
    · exact h.ticket i c hc
  case mem =>
    rw [h.mem_iff]
    constructor
    · rintro ⟨c, hc, hpub⟩
      exact ⟨c, by rw [List.getElem?_append_left (List.getElem?_eq_some_iff.mp hc).1, hc], hpub⟩
    · rintro ⟨c, hc, hpub⟩
      rcases getElem?_concat_cases hc with ⟨-, rfl⟩ | ⟨-, hc⟩
      · -- a call does not start as one that has published
        cases v <;> cases hpub
      · exact ⟨c, hc, hpub⟩

/-- A step of a call that does not store the tail. -/
theorem call_of_not_publishes (h : Inv base s order) (hnot : ¬ s.publishes i)
    (hs : (system v r).step s (.call i) = some s') : Inv base s' order := by
  obtain ⟨c, sh', c', hc, hstep, rfl⟩ := step_call hs
  obtain ⟨hcache, hhead, htail⟩ := Call.step_words hstep
  have hphase : c.phase ≠ .storeTail := fun heq => hnot (by simp [State.publishes, hc, heq])
  have hlt := (List.getElem?_eq_some_iff.mp hc).1
  refine
    { cache := by rw [hcache, List.length_set, h.cache], tail := ?tail,
      head := hhead.trans h.head, ticket := ?ticket, mem_iff := fun j => ?mem, nodup := h.nodup }
  case tail => rw [htail, if_neg hphase, h.tail]
  case ticket =>
    intro j d hd
    rcases getElem?_set_cases hd with ⟨rfl, rfl⟩ | ⟨-, hd⟩
    · exact (Call.step_args hstep).2.trans (h.ticket j c hc)
    · exact h.ticket j d hd
  case mem =>
    have hpub := Call.step_published hstep
    rw [h.mem_iff]
    by_cases hij : j = i
    · subst hij
      simp [hc, List.getElem?_set_self hlt, hpub, hphase]
    · simp [List.getElem?_set_ne (Ne.symm hij)]

/-- A store of the tail comes last in the order. -/
theorem call_of_publishes (h : Inv base s order) (hpub : s.publishes i)
    (hs : (system v r).step s (.call i) = some s') : i ∉ order ∧ Inv base s' (order ++ [i]) := by
  obtain ⟨c, sh', c', hc, hstep, rfl⟩ := step_call hs
  obtain ⟨hcache, hhead, htail⟩ := Call.step_words hstep
  have hphase : c.phase = .storeTail := by simpa [State.publishes, hc] using hpub
  have hlt := (List.getElem?_eq_some_iff.mp hc).1
  have hnew : i ∉ order := by
    rw [h.mem_iff]
    rintro ⟨d, hd, hdpub⟩
    obtain rfl : c = d := Option.some.inj (hc.symm.trans hd)
    simp [Call.published_of_storeTail hphase] at hdpub
  refine ⟨hnew,
    { cache := by rw [hcache, List.length_set, h.cache], tail := ?tail,
      head := hhead.trans h.head, ticket := ?ticket, mem_iff := fun j => ?mem, nodup := ?nodup }⟩
  case tail => rw [htail, if_pos hphase, h.ticket i c hc, after_add_one, lastStored_concat]
  case ticket =>
    intro j d hd
    rcases getElem?_set_cases hd with ⟨rfl, rfl⟩ | ⟨-, hd⟩
    · exact (Call.step_args hstep).2.trans (h.ticket j c hc)
    · exact h.ticket j d hd
  case mem =>
    have hstored := (Call.step_published hstep).mpr (.inr hphase)
    rw [List.mem_append, List.mem_singleton, h.mem_iff]
    by_cases hij : j = i
    · subst hij
      simp [List.getElem?_set_self hlt, hstored]
    · simp [List.getElem?_set_ne (Ne.symm hij), hij]
  case nodup =>
    rw [← List.concat_eq_append]
    exact h.nodup.concat hnew

/-- Steps of the kernel other than a take. -/
theorem of_eq (h : Inv base s order) (hcalls : s'.calls = s.calls)
    (hlen : s'.reqs.length = s.reqs.length)
    (hshared : ∃ flags, s'.shared = { s.shared with sringFlags := flags }) :
    Inv base s' order := by
  obtain ⟨flags, hshared⟩ := hshared
  refine { cache := ?_, tail := ?_, head := ?_, ticket := ?_, mem_iff := ?_, nodup := h.nodup } <;>
    simp only [hcalls, hlen, hshared]
  exacts [h.cache, h.tail, h.head, h.ticket, h.mem_iff]

theorem step {a : Label} (h : Inv base s order) (hs : (system v r).step s a = some s') :
    Inv base s' (order ++ storeEvents s a) := by
  cases a with
  | call i =>
    by_cases hpub : s.publishes i
    · rw [storeEvents, if_pos hpub]
      exact (h.call_of_publishes hpub hs).2
    · rw [storeEvents, if_neg hpub, List.append_nil]
      exact h.call_of_not_publishes hpub hs
  | claim msg => rw [storeEvents, List.append_nil]; exact h.claim hs
  | take =>
    obtain ⟨-, -, rfl⟩ := step_take hs
    rw [storeEvents, List.append_nil]
    refine { h with head := ?_ }
    rw [List.length_append, List.length_singleton, ← after_add_one, ← h.head]
  | write j =>
    obtain ⟨q, -, -, rfl⟩ := step_write hs
    rw [storeEvents, List.append_nil]
    exact h.of_eq rfl (List.length_set ..) ⟨_, rfl⟩
  | complete j =>
    obtain ⟨q, _, -, -, -, rfl⟩ := step_complete hs
    rw [storeEvents, List.append_nil]
    exact h.of_eq rfl (List.length_set ..) ⟨_, rfl⟩
  | poller a =>
    rw [step_poller hs, storeEvents, List.append_nil]
    exact h.of_eq rfl rfl ⟨_, rfl⟩

end Inv

/-- What the stores of a run leave. -/
theorem inv_of_runs {P : State → Label → Prop} (h : (system v r).Runs P s₀ as s) :
    Inv s₀.shared.sringTail s (storeOrder v r s₀ as) := by
  induction h with
  | start hi => exact .of_init hi
  | step hr _ hs ih =>
    rw [storeOrder, hr.trace_concat storeEvents]
    exact ih.step hs

/-- In a sorted order no store overtakes a later one. -/
theorem publishesForward_iff (h : Inv base s order) {a : Label}
    (hs : (system v r).step s a = some s') :
    publishesForward s a ↔ ∀ i ∈ storeEvents s a, ∀ j ∈ order, j < i := by
  cases a with
  | call i =>
    simp only [publishesForward, storeEvents]
    by_cases hpub : s.publishes i
    · have hnew := (h.call_of_publishes hpub hs).1
      simp only [hpub, forall_const, if_true, List.mem_singleton, forall_eq]
      constructor
      · intro hg j hj
        by_contra hge
        have hne : j ≠ i := fun heq => hnew (heq ▸ hj)
        obtain ⟨c, hc, hcpub⟩ := (h.mem_iff j).mp hj
        -- the store of a later call would have been made already
        have hmem : c ∈ s.calls.drop (i + 1) :=
          List.mem_iff_getElem?.mpr ⟨j - (i + 1), by
            rw [List.getElem?_drop, Nat.add_sub_cancel' (by omega), hc]⟩
        simp [hg c hmem] at hcpub
      · intro hg c hc
        obtain ⟨k, hk⟩ := List.mem_iff_getElem?.mp hc
        rw [List.getElem?_drop] at hk
        by_contra hcpub
        have hlt := hg _ ((h.mem_iff _).mpr ⟨c, hk, by simpa using hcpub⟩)
        omega
    · simp [hpub]
  | _ => simp [publishesForward, storeEvents]

/-- In an order that counts up without a gap every store is the one that is due. -/
theorem publishesInOrder_iff (h : Inv base s order) (horder : order = List.range order.length)
    {a : Label} (hs : (system v r).step s a = some s') :
    publishesInOrder s a ↔ ∀ i ∈ storeEvents s a, i = order.length := by
  have hmem : ∀ j, j ∈ order ↔ j < order.length := by
    intro j
    rw [horder, List.length_range, List.mem_range]
  cases a with
  | call i =>
    simp only [publishesInOrder, storeEvents]
    by_cases hpub : s.publishes i
    · have hnew := (h.call_of_publishes hpub hs).1
      obtain ⟨c, -, -, hc, -, -⟩ := step_call hs
      have hlt := (List.getElem?_eq_some_iff.mp hc).1
      simp only [hpub, forall_const, if_true, List.mem_singleton, forall_eq]
      rw [hmem] at hnew
      constructor
      · intro hg
        by_contra hne
        -- the call that is due is an earlier one, and has not stored the tail
        have hd : s.calls[order.length]? = some s.calls[order.length] :=
          List.getElem?_eq_getElem (by omega)
        have hdpub := hg s.calls[order.length] (List.mem_iff_getElem?.mpr
          ⟨order.length, by rw [List.getElem?_take_of_lt (by omega), hd]⟩)
        have hlast := (hmem order.length).mp ((h.mem_iff _).mpr ⟨_, hd, hdpub⟩)
        omega
      · rintro rfl d hd
        obtain ⟨j, hj, hget⟩ := getElem?_of_mem_take hd
        obtain ⟨e, he, hepub⟩ := (h.mem_iff j).mp ((hmem j).mpr hj)
        obtain rfl : d = e := Option.some.inj (hget.symm.trans he)
        exact hepub
    · simp [hpub]
  | _ => simp [publishesInOrder, storeEvents]

/-- A step makes one store at most. -/
theorem storeEvents_cases (s : State) (a : Label) :
    storeEvents s a = [] ∨ ∃ i, storeEvents s a = [i] := by
  cases a with
  | call i => by_cases hpub : s.publishes i <;> simp [storeEvents, hpub]
  | _ => exact .inl rfl

theorem runs_publishesForward_iff {P : State → Label → Prop}
    (h : (system v r).Runs P s₀ as s) :
    (system v r).Runs publishesForward s₀ as s ↔
      (storeOrder v r s₀ as).Pairwise (· < ·) := by
  induction h with
  | start hi => exact iff_of_true (.start hi) .nil
  | @step as s s' a hr hp hs ih =>
    have hev : (storeEvents s a).Pairwise (· < ·) := by
      rcases storeEvents_cases s a with hev | ⟨i, hev⟩ <;> simp [hev]
    have hconcat : storeOrder v r s₀ (as ++ [a]) = storeOrder v r s₀ as ++ storeEvents s a :=
      hr.trace_concat storeEvents a
    rw [hr.concat_iff hs, ih, publishesForward_iff (inv_of_runs hr) hs, hconcat,
      List.pairwise_append]
    exact ⟨fun ⟨hsorted, hlast⟩ => ⟨hsorted, hev, fun j hj i hi => hlast i hi j hj⟩,
      fun ⟨hsorted, _, hlast⟩ => ⟨hsorted, fun i hi j hj => hlast j hj i hi⟩⟩

/-- A list counts up from zero when the list before its last element does and the last element is
due. -/
theorem concat_eq_range_iff {l : List ℕ} :
    l ++ [i] = List.range (l ++ [i]).length ↔ l = List.range l.length ∧ i = l.length := by
  rw [List.length_append, List.length_singleton, List.range_succ]
  constructor
  · intro heq
    obtain ⟨hl, hi⟩ := List.append_inj' heq rfl
    exact ⟨hl, List.head_eq_of_cons_eq hi⟩
  · rintro ⟨hl, hi⟩
    rw [← hl, ← hi]

theorem runs_publishesInOrder_iff {P : State → Label → Prop}
    (h : (system v r).Runs P s₀ as s) :
    (system v r).Runs publishesInOrder s₀ as s ↔
      storeOrder v r s₀ as = List.range (storeOrder v r s₀ as).length := by
  induction h with
  | start hi => exact iff_of_true (.start hi) rfl
  | @step as s s' a hr hp hs ih =>
    have hinv := inv_of_runs hr
    have hconcat : storeOrder v r s₀ (as ++ [a]) = storeOrder v r s₀ as ++ storeEvents s a :=
      hr.trace_concat storeEvents a
    rw [hr.concat_iff hs, ih, hconcat]
    rcases storeEvents_cases s a with hev | ⟨i, hev⟩
    · rw [hev, List.append_nil, and_iff_left_iff_imp]
      intro horder
      rw [publishesInOrder_iff hinv horder hs, hev]
      simp
    · rw [hev, concat_eq_range_iff]
      refine and_congr_right fun horder => ?_
      rw [publishesInOrder_iff hinv horder hs, hev]
      simp

end StoreOrder

/-- In every run the calls that have published have stored the tail once each, the tail shows the
last of these stores, no store overtakes a later one exactly if their order is sorted, and they are
in ticket order exactly if the order counts up from zero. -/
theorem storeOrder_spec {P : State → Label → Prop} (h : (system v r).Runs P s₀ as s) :
    ((storeOrder v r s₀ as).Nodup ∧
      ∀ i, i ∈ storeOrder v r s₀ as ↔ ∃ c, s.calls[i]? = some c ∧ c.published = true) ∧
    s.shared.sringTail = after s₀.shared.sringTail (lastStored (storeOrder v r s₀ as)) ∧
    ((system v r).Runs publishesForward s₀ as s ↔ (storeOrder v r s₀ as).Pairwise (· < ·)) ∧
    ((system v r).Runs publishesInOrder s₀ as s ↔
      storeOrder v r s₀ as = List.range (storeOrder v r s₀ as).length) := by
  have hinv := StoreOrder.inv_of_runs h
  exact ⟨⟨hinv.nodup, hinv.mem_iff⟩, hinv.tail, StoreOrder.runs_publishesForward_iff h,
    StoreOrder.runs_publishesInOrder_iff h⟩

/-- The first two calls store the tail in the wrong order, the third one after them. -/
def overtakenThenThird : List Label :=
  overtakingStores 6 ++ .claim helloA :: List.replicate 6 (.call 2)

theorem storeOrder_overtaken :
    storeOrder .ioUringCpuMt demoRing .afterSetup overtakenThenThird = [1, 0, 2] ∧
      ∃ s : State, (system .ioUringCpuMt demoRing).Runs (fun _ _ => True) .afterSetup
          overtakenThenThird s ∧ s.shared.sringTail = 3 ∧
        ¬ (system .ioUringCpuMt demoRing).Runs publishesForward .afterSetup
          overtakenThenThird s := by
  have hrun : (system .ioUringCpuMt demoRing).Runs (fun _ _ => True) .afterSetup
      overtakenThenThird _ := .of_runUnder State.initial_afterSetup (by decide +kernel)
  have horder : storeOrder .ioUringCpuMt demoRing .afterSetup overtakenThenThird = [1, 0, 2] := by
    decide +kernel
  obtain ⟨-, htail, hforward, -⟩ := storeOrder_spec hrun
  rw [horder] at htail hforward
  exact ⟨horder, _, hrun, htail, fun h => absurd (hforward.mp h) (by decide)⟩

end GpuLibc
