import GpuLibc.Uring.Ledger
import Mathlib.Data.Finset.Card

/-!
# The balance of a history

What any history of set-ups and teardowns leaves behind, whatever the calls inside the set-ups
return, as long as contexts are torn down only when they are set up. Every block that is freed is
live, and each resource has been acquired once more than released exactly if it is live. A teardown
frees the three blocks of its own context. What stays for ever is what failing set-ups have
acquired, the blocks of contexts that are set up twice, and every descriptor.

* `acquisitions`: what a call acquires.
* `Holding`: the pointers of the contexts that are set up.
* `Balanced`, `balanced_of_runs`: the balance of every history.
-/

namespace GpuLibc

/-- The blocks that teardown frees, in order. -/
def CtxFields.pointers (ctx : CtxFields) : List ℕ := [ctx.msgPool, ctx.sqRingPtr, ctx.sqes]

namespace SetupOutcome

/-- The set-up gets past the calls that may fail in front of the message pool. -/
def OpensRing (o : SetupOutcome) : Prop := 0 ≤ o.ringFd ∧ o.registerFiles = 0

instance (o : SetupOutcome) : Decidable o.OpensRing := inferInstanceAs (Decidable (_ ∧ _))

/-- The blocks of a context that is set up, in the order in which teardown frees them. -/
def blocks (o : SetupOutcome) : List ℕ := [o.poolMem, o.ringMem, o.sqeMem]

end SetupOutcome

namespace LedgerOp

variable {κ : Type*}

/-- What a call acquires, whether it fails or not. -/
def acquisitions : LedgerOp κ → List Resource
  | .setup _ o =>
    [.memory o.ringMem, .memory o.sqeMem] ++
      (if 0 ≤ o.ringFd then [.descriptor o.ringFd.toNat] else []) ++
      if o.OpensRing then [.memory o.poolMem] else []
  | .teardown _ => []

def isTeardown : LedgerOp κ → Bool
  | .setup _ _ => false
  | .teardown _ => true

end LedgerOp

/-- Everything that the calls of a history acquire. -/
def acquired {κ : Type*} (as : List (LedgerOp κ)) : List Resource :=
  as.flatMap LedgerOp.acquisitions

/-- The number of teardowns of a history. -/
def teardowns {κ : Type*} (as : List (LedgerOp κ)) : ℕ := as.countP LedgerOp.isTeardown

namespace Ledger

/-! ## Teardown -/

section

variable {κ : Type*} {s : Ledger κ}

theorem teardownUring_eq (c : κ) (s : Ledger κ) :
    s.teardownUring c = (s.fields c).pointers.foldl (fun t ptr => t.free ptr) s := by
  rw [teardownUring]
  rfl

/-- Freeing blocks one after the other, none of them a null pointer. -/
theorem foldl_free {ptrs : List ℕ} (hptrs : ∀ ptr ∈ ptrs, ptr ≠ 0) (s : Ledger κ) :
    ptrs.foldl (fun t ptr => t.free ptr) s =
      { s with
        live := s.live \ (ptrs.map Resource.memory).toFinset
        released := s.released ++ ptrs.map Resource.memory } := by
  induction ptrs generalizing s with
  | nil => simp
  | cons ptr ptrs ih =>
    obtain ⟨hptr, hrest⟩ := List.forall_mem_cons.mp hptrs
    have hlive : s.live.erase (.memory ptr) \ (ptrs.map Resource.memory).toFinset =
        s.live \ ((ptr :: ptrs).map Resource.memory).toFinset := by
      ext x
      simp only [List.map_cons, List.toFinset_cons, Finset.mem_sdiff, Finset.mem_erase,
        Finset.mem_insert]
      tauto
    rw [List.foldl_cons, ih hrest, free, if_pos hptr, ← hlive, List.map_cons,
      ← List.append_cons]

end

/-! ## The pointers of the contexts -/

section

variable {κ : Type*} {s : Ledger κ}

/-- Each context that is set up has pointers of its own to three live blocks. -/
structure Holding (s : Ledger κ) : Prop where
  live : ∀ c, s.SetUp c → ∀ ptr ∈ (s.fields c).pointers, ptr ≠ 0 ∧ .memory ptr ∈ s.live
  nodup : ∀ c, s.SetUp c → (s.fields c).pointers.Nodup
  apart : ∀ c c', s.SetUp c → s.SetUp c' → c ≠ c' →
    (s.fields c).pointers.Disjoint (s.fields c').pointers

theorem Holding.of_init (h : s.Initial) : s.Holding where
  live c hc := absurd (h.owned c) hc
  nodup c hc := absurd (h.owned c) hc
  apart c _ hc := absurd (h.owned c) hc

end

variable {κ : Type*} [DecidableEq κ] {s s' s₀ : Ledger κ} {a : LedgerOp κ} {as : List (LedgerOp κ)}
  {c d : κ} {o : SetupOutcome}

omit [DecidableEq κ] in
/-- What a set-up acquires is new, and all of it different. -/
theorem nodup_acquisitions (hfresh : o.Fresh s.live) :
    (LedgerOp.setup c o).acquisitions.Nodup ∧
      ∀ x ∈ (LedgerOp.setup c o).acquisitions, x ∉ s.live := by
  obtain ⟨-, ⟨hrs, hrp, hsp⟩, hring, hsqe, hpool, hfd⟩ := hfresh
  rw [LedgerOp.acquisitions]
  constructor
  · split_ifs <;> simp [hrs, hrp, hsp]
  · intro x hx
    simp only [List.mem_append, List.mem_cons, List.not_mem_nil, or_false,
      List.mem_ite_nil_right] at hx
    rcases hx with ((rfl | rfl) | ⟨hopen, rfl⟩) | ⟨-, rfl⟩
    · exact hring
    · exact hsqe
    · exact hfd hopen
    · exact hpool

/-- Resources acquired one after the other. -/
theorem foldl_insert (l : List Resource) (live : Finset Resource) :
    l.foldl (fun t x => insert x t) live = live ∪ l.toFinset := by
  induction l generalizing live with
  | nil => simp
  | cons x l ih =>
    rw [List.foldl_cons, ih]
    ext y
    simp only [Finset.mem_union, Finset.mem_insert, List.toFinset_cons]
    tauto

/-- The exits of set-up: what it has acquired, and whether the pointers are recorded. -/
theorem setupUring_cases (c : κ) (o : SetupOutcome) (s : Ledger κ) :
    ∃ (ctx : CtxFields) (ret : ℤ),
      s.setupUring c o =
        ({ s with
            fields := Function.update s.fields c ctx
            live := s.live ∪ (LedgerOp.setup c o).acquisitions.toFinset }, ret) ∧
      ctx.pointers = (if o.OpensRing then o.blocks else (s.fields c).pointers) ∧
      (ret = 0 ↔ o.Succeeds) := by
  by_cases hfd : o.ringFd < 0
  · -- there is no ring
    have hopen : ¬ 0 ≤ o.ringFd := not_le.mpr hfd
    have hring : ¬ o.OpensRing := fun h => hopen h.1
    refine ⟨{ s.fields c with ringFd := o.ringFd }, -1, ?_, ?_, ?_⟩
    · rw [setupUring, if_pos hfd, LedgerOp.acquisitions, if_neg hopen, if_neg hring, openRing,
        if_neg hopen]
      rw [← foldl_insert]
      rfl
    · rw [if_neg hring]
      rfl
    · exact iff_of_false (by decide) fun h => hopen h.1
  have hopen : 0 ≤ o.ringFd := not_lt.mp hfd
  by_cases hfiles : o.registerFiles ≠ 0
  · -- there is a ring, but no message pool
    have hring : ¬ o.OpensRing := fun h => hfiles h.2
    refine ⟨{ s.fields c with ringFd := o.ringFd }, -1, ?_, ?_, ?_⟩
    · rw [setupUring, if_neg hfd, if_pos hfiles, LedgerOp.acquisitions, if_pos hopen, if_neg hring,
        openRing, if_pos hopen]
      rw [← foldl_insert]
      rfl
    · rw [if_neg hring]
      rfl
    · exact iff_of_false (by decide) fun h => hfiles h.2.1
  · -- the message pool is there, whatever the last call returns
    have hring : o.OpensRing := ⟨hopen, not_not.mp hfiles⟩
    refine ⟨{ ringFd := o.ringFd, sqRingPtr := o.ringMem, sqes := o.sqeMem, msgPool := o.poolMem },
      if o.registerBuffers ≠ 0 then -1 else 0, ?_, ?_, ?_⟩
    · rw [setupUring, if_neg hfd, if_neg hfiles, LedgerOp.acquisitions, if_pos hopen, if_pos hring,
        openRing, if_pos hopen]
      rw [← foldl_insert]
      simp only [assign, allocate, Function.update_self, Function.update_idem]
      split_ifs <;> rfl
    · rw [if_pos hring]
      rfl
    · by_cases hbuffers : o.registerBuffers ≠ 0
      · rw [if_pos hbuffers]
        exact iff_of_false (by decide) fun h => hbuffers h.2.2
      · rw [if_neg hbuffers]
        exact iff_of_true rfl ⟨hopen, not_not.mp hfiles, not_not.mp hbuffers⟩

/-- What a set-up does to the ledger. -/
theorem step_setup_cases (hs : (ledger κ).step s (.setup c o) = some s') :
    o.Fresh s.live ∧ s'.released = s.released ∧
      s'.live = s.live ∪ (LedgerOp.setup c o).acquisitions.toFinset ∧
      (∀ d, (s'.fields d).pointers =
        if d = c ∧ o.OpensRing then o.blocks else (s.fields d).pointers) ∧
      s'.owned = if o.Succeeds then Function.update s.owned c o.acquired else s.owned := by
  obtain ⟨hfresh, rfl⟩ := step_setup hs
  obtain ⟨ctx, ret, hresult, hptrs, hret⟩ := setupUring_cases c o s
  have hall (d : κ) : (Function.update s.fields c ctx d).pointers =
      if d = c ∧ o.OpensRing then o.blocks else (s.fields d).pointers := by
    by_cases hd : d = c
    · rw [hd, Function.update_self, hptrs]
      simp only [true_and]
    · rw [Function.update_of_ne hd, if_neg fun h => hd h.1]
  rw [hresult]
  simp only [hret]
  split_ifs with hsucceeds
  · exact ⟨hfresh, rfl, rfl, hall, rfl⟩
  · exact ⟨hfresh, rfl, rfl, hall, rfl⟩

/-- What a teardown of a context that is set up does to the ledger. -/
theorem step_teardown (h : s.Holding) (hc : s.SetUp c)
    (hs : (ledger κ).step s (.teardown c) = some s') :
    s' = { s with
      live := s.live \ ((s.fields c).pointers.map Resource.memory).toFinset
      released := s.released ++ (s.fields c).pointers.map Resource.memory
      owned := Function.update s.owned c ∅ } := by
  obtain rfl := Option.some.inj hs
  rw [teardownUring_eq, foldl_free fun ptr hptr => (h.live c hc ptr hptr).1]

theorem Holding.setup (h : s.Holding) (hs : (ledger κ).step s (.setup c o) = some s') :
    s'.Holding := by
  obtain ⟨hfresh, -, hlive, hptrs, howned⟩ := step_setup_cases hs
  obtain ⟨⟨hring, hsqe, hpool⟩, ⟨hrs, hrp, hsp⟩, hnewring, hnewsqe, hnewpool, -⟩ := hfresh
  have hblocks {ptr : ℕ} (hptr : ptr ∈ o.blocks) : ptr ≠ 0 ∧ .memory ptr ∉ s.live := by
    simp only [SetupOutcome.blocks, List.mem_cons, List.not_mem_nil, or_false] at hptr
    rcases hptr with rfl | rfl | rfl
    · exact ⟨hpool, hnewpool⟩
    · exact ⟨hring, hnewring⟩
    · exact ⟨hsqe, hnewsqe⟩
  -- the pointers of a context are new, or they are those from before
  have hcases {d : κ} (hd : s'.SetUp d) :
      d = c ∧ o.OpensRing ∧ (s'.fields d).pointers = o.blocks ∨
        s.SetUp d ∧ (s'.fields d).pointers = (s.fields d).pointers := by
    by_cases hnew : d = c ∧ o.OpensRing
    · exact .inl ⟨hnew.1, hnew.2, by rw [hptrs, if_pos hnew]⟩
    · refine .inr ⟨?_, by rw [hptrs, if_neg hnew]⟩
      rw [SetUp, howned] at hd
      split_ifs at hd with hsucceeds
      · have hdc : d ≠ c := fun hdc => hnew ⟨hdc, hsucceeds.1, hsucceeds.2.1⟩
        rwa [Function.update_of_ne hdc] at hd
      · exact hd
  -- new pointers and those from before have nothing in common
  have hapart {d : κ} (hd : s.SetUp d) : o.blocks.Disjoint (s.fields d).pointers :=
    fun ptr hptr hptr' => (hblocks hptr).2 (h.live d hd ptr hptr').2
  refine { live := ?live, nodup := ?nodup, apart := ?apart }
  case live =>
    intro d hd ptr hptr
    rw [hlive, Finset.mem_union, List.mem_toFinset]
    rcases hcases hd with ⟨-, hopen, heq⟩ | ⟨hd, heq⟩
    · rw [heq] at hptr
      refine ⟨(hblocks hptr).1, .inr ?_⟩
      rw [LedgerOp.acquisitions, if_pos hopen]
      simp only [SetupOutcome.blocks, List.mem_cons, List.not_mem_nil, or_false] at hptr
      rcases hptr with rfl | rfl | rfl <;> simp
    · rw [heq] at hptr
      exact ⟨(h.live d hd ptr hptr).1, .inl (h.live d hd ptr hptr).2⟩
  case nodup =>
    intro d hd
    rcases hcases hd with ⟨-, -, heq⟩ | ⟨hd, heq⟩
    · rw [heq]
      simp [SetupOutcome.blocks, hrs, hrp.symm, hsp.symm]
    · rw [heq]
      exact h.nodup d hd
  case apart =>
    intro d d' hd hd' hne
    rcases hcases hd with ⟨rfl, -, heq⟩ | ⟨hd, heq⟩ <;>
      rcases hcases hd' with ⟨rfl, -, heq'⟩ | ⟨hd', heq'⟩
    · exact absurd rfl hne
    · rw [heq, heq']
      exact hapart hd'
    · rw [heq, heq']
      exact (hapart hd).symm
    · rw [heq, heq']
      exact h.apart d d' hd hd' hne

theorem Holding.teardown (h : s.Holding) (hc : s.SetUp c)
    (hs : (ledger κ).step s (.teardown c) = some s') : s'.Holding := by
  obtain rfl := step_teardown h hc hs
  -- the contexts that are set up afterwards
  have hcases {d : κ} (hd : Function.update s.owned c ∅ d ≠ ∅) : d ≠ c ∧ s.SetUp d := by
    by_cases hdc : d = c
    · rw [hdc, Function.update_self] at hd
      exact absurd rfl hd
    · rw [Function.update_of_ne hdc] at hd
      exact ⟨hdc, hd⟩
  refine { live := ?live, nodup := ?nodup, apart := ?apart }
  case live =>
    intro d hd ptr hptr
    obtain ⟨hdc, hd⟩ := hcases hd
    obtain ⟨hne, hmem⟩ := h.live d hd ptr hptr
    refine ⟨hne, Finset.mem_sdiff.mpr ⟨hmem, fun hfreed => ?_⟩⟩
    obtain ⟨ptr', hptr', heq⟩ := List.mem_map.mp (List.mem_toFinset.mp hfreed)
    obtain rfl := Resource.memory.inj heq
    exact h.apart d c hd hc hdc hptr hptr'
  case nodup => exact fun d hd => h.nodup d (hcases hd).2
  case apart => exact fun d d' hd hd' => h.apart d d' (hcases hd).2 (hcases hd').2

theorem Holding.step (h : s.Holding) (hg : s.teardownOfSetUp a)
    (hs : (ledger κ).step s a = some s') : s'.Holding := by
  cases a with
  | setup c o => exact h.setup hs
  | teardown c => exact h.teardown hg hs

/-! ## The balance -/

/-- Live blocks are freed, and new resources are acquired. -/
structure Exchange (s s' : Ledger κ) (freed : List ℕ) (got : List Resource) : Prop where
  released : s'.released = s.released ++ freed.map Resource.memory
  live : s'.live = (s.live \ (freed.map Resource.memory).toFinset) ∪ got.toFinset
  nodup_freed : freed.Nodup
  freed_live : ∀ ptr ∈ freed, .memory ptr ∈ s.live
  nodup_got : got.Nodup
  got_new : ∀ x ∈ got, x ∉ s.live

/-- Every call of a history exchanges resources; a teardown frees three blocks. -/
theorem exists_exchange (h : s.Holding) (hg : s.teardownOfSetUp a)
    (hs : (ledger κ).step s a = some s') :
    ∃ freed, s.Exchange s' freed a.acquisitions ∧
      freed.length = 3 * (if a.isTeardown then 1 else 0) := by
  cases a with
  | setup c o =>
    obtain ⟨hfresh, hreleased, hlive, -, -⟩ := step_setup_cases hs
    obtain ⟨hnodup, hnew⟩ := nodup_acquisitions (c := c) hfresh
    refine ⟨[], { released := ?_, live := ?_, nodup_freed := .nil, freed_live := ?_
                  nodup_got := hnodup, got_new := hnew }, rfl⟩
    · rw [hreleased, List.map_nil, List.append_nil]
    · rw [hlive, List.map_nil, List.toFinset_nil, Finset.sdiff_empty]
    · simp
  | teardown c =>
    obtain rfl := step_teardown h hg hs
    refine ⟨(s.fields c).pointers, { released := rfl, live := ?_, nodup_freed := h.nodup c hg
                                     freed_live := ?_, nodup_got := .nil, got_new := ?_ }, rfl⟩
    · rw [LedgerOp.acquisitions, List.toFinset_nil, Finset.union_empty]
    · exact fun ptr hptr => (h.live c hg ptr hptr).2
    · simp [LedgerOp.acquisitions]

section

omit [DecidableEq κ]

variable {freed : List ℕ} {got : List Resource}

theorem Exchange.nodup_map (h : s.Exchange s' freed got) :
    (freed.map Resource.memory).Nodup := h.nodup_freed.map fun _ _ => Resource.memory.inj

theorem Exchange.mem_live (h : s.Exchange s' freed got) {x : Resource}
    (hx : x ∈ freed.map Resource.memory) : x ∈ s.live := by
  obtain ⟨ptr, hptr, rfl⟩ := List.mem_map.mp hx
  exact h.freed_live ptr hptr

/-- The balance of one resource. -/
theorem Exchange.count (h : s.Exchange s' freed got) (x : Resource) :
    s'.released.count x + (if x ∈ s'.live then 1 else 0) =
      s.released.count x + (if x ∈ s.live then 1 else 0) + got.count x := by
  rw [h.released, h.live, List.count_append, h.nodup_map.count, h.nodup_got.count]
  simp only [Finset.mem_union, Finset.mem_sdiff, List.mem_toFinset]
  by_cases hgot : x ∈ got
  · -- what is new has not been freed
    have hlive := h.got_new x hgot
    have hfreed : x ∉ freed.map Resource.memory := fun hx => hlive (h.mem_live hx)
    simp only [hgot, hlive, hfreed, or_true, if_true, if_false]
  · by_cases hfreed : x ∈ freed.map Resource.memory
    · have hlive := h.mem_live hfreed
      simp only [hgot, hlive, hfreed, not_true, and_false, or_false, if_true, if_false]
    · simp only [hgot, hfreed, not_false_iff, and_true, or_false, if_false, Nat.add_zero]

/-- The number of live resources. -/
theorem Exchange.card (h : s.Exchange s' freed got) :
    s'.live.card + freed.length = s.live.card + got.length := by
  have hsub : (freed.map Resource.memory).toFinset ⊆ s.live := fun x hx =>
    h.mem_live (List.mem_toFinset.mp hx)
  have hdisj : Disjoint (s.live \ (freed.map Resource.memory).toFinset) got.toFinset :=
    Finset.disjoint_right.mpr fun x hx hx' =>
      h.got_new x (List.mem_toFinset.mp hx) (Finset.mem_sdiff.mp hx').1
  have hfreed := Finset.card_sdiff_add_card_eq_card hsub
  rw [List.toFinset_card_of_nodup h.nodup_map, List.length_map] at hfreed
  rw [h.live, Finset.card_union_of_disjoint hdisj, List.toFinset_card_of_nodup h.nodup_got]
  omega

/-- Descriptors are never closed. -/
theorem Exchange.descriptor (h : s.Exchange s' freed got) (fd : ℕ) :
    .descriptor fd ∈ s'.live ↔ .descriptor fd ∈ s.live ∨ .descriptor fd ∈ got := by
  rw [h.live]
  simp

end

/-- The balance of the history `as`, which has led from `s₀` to `s`. -/
structure Balanced (s₀ s : Ledger κ) (as : List (LedgerOp κ)) : Prop where
  held : s.Holding
  /-- A live resource has been acquired once more than released, and any other one as often. -/
  count : ∀ x, s.released.count x + (if x ∈ s.live then 1 else 0) =
    s₀.released.count x + (acquired as).count x
  released : s.released.length = s₀.released.length + 3 * teardowns as
  card : s.live.card + 3 * teardowns as = (acquired as).length
  descriptor : ∀ fd, .descriptor fd ∈ s.live ↔ .descriptor fd ∈ acquired as

omit [DecidableEq κ] in
theorem Balanced.of_init (h : s₀.Initial) : Balanced s₀ s₀ [] where
  held := .of_init h
  count x := by simp [h.live, acquired]
  released := rfl
  card := by simp [h.live, acquired, teardowns]
  descriptor fd := by simp [h.live, acquired]

theorem Balanced.step (h : Balanced s₀ s as) (hg : s.teardownOfSetUp a)
    (hs : (ledger κ).step s a = some s') : Balanced s₀ s' (as ++ [a]) := by
  obtain ⟨freed, hex, hlen⟩ := exists_exchange h.held hg hs
  have hacquired : acquired (as ++ [a]) = acquired as ++ a.acquisitions := by
    rw [acquired, acquired, List.flatMap_append, List.flatMap_singleton]
  have hteardowns : teardowns (as ++ [a]) = teardowns as + if a.isTeardown then 1 else 0 := by
    rw [teardowns, teardowns, List.countP_append, List.countP_singleton]
  refine { held := h.held.step hg hs, count := ?count, released := ?released, card := ?card
           descriptor := ?descriptor }
  case count =>
    intro x
    rw [hex.count, h.count, hacquired, List.count_append, Nat.add_assoc]
  case released =>
    rw [hex.released, List.length_append, List.length_map, h.released, hlen, hteardowns]
    omega
  case card =>
    have hcard := hex.card
    have hbefore := h.card
    rw [hteardowns, hacquired, List.length_append]
    omega
  case descriptor =>
    intro fd
    rw [hex.descriptor, h.descriptor, hacquired, List.mem_append]

/-- For every history in which contexts are torn down only when they are set up, whatever the calls
inside the set-ups return: the contexts that are set up hold live blocks of their own, every
resource has been acquired once more than released if it is live and as often as released if not,
each teardown has released three blocks, and all descriptors that were ever opened are live. -/
theorem balanced_of_runs {κ : Type*} [DecidableEq κ] {s₀ s : Ledger κ} {as : List (LedgerOp κ)}
    (h : (ledger κ).Runs teardownOfSetUp s₀ as s) : Balanced s₀ s as := by
  induction h with
  | start hinit => exact .of_init hinit
  | step _ hg hs ih => exact ih.step hg hs

/-- A set-up that fails in front of the message pool, one that succeeds, and a teardown. -/
def failedThenTornDown : List (LedgerOp ℕ) :=
  [.setup 0 { demoOutcome 0x1000 3 with registerFiles := -1 }, .setup 0 (demoOutcome 0x2000 4),
    .teardown 0]

/-- Two blocks and two descriptors stay. -/
theorem balanced_failedThenTornDown :
    ∃ s : Ledger ℕ, (ledger ℕ).Runs teardownOfSetUp (empty ℕ) failedThenTornDown s ∧
      Balanced (empty ℕ) s failedThenTornDown ∧ s.live.card = 4 := by
  have hrun : (ledger ℕ).Runs teardownOfSetUp (empty ℕ) failedThenTornDown _ :=
    .of_runUnder (initial_empty ℕ) (by decide +kernel)
  exact ⟨_, hrun, balanced_of_runs hrun, by decide +kernel⟩

end Ledger

end GpuLibc
