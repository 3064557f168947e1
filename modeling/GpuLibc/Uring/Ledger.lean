import GpuLibc.Lib.Machine
import Mathlib.Data.Finset.Insert
import Mathlib.Data.Finset.Erase
import Mathlib.Data.Finset.Lattice.Basic

/-!
# The resource ledger

What `setup_uring` of `gpu_svm_demo` acquires and `teardown_uring` releases: three blocks of the
HSA pool and the descriptor of the ring. The failure exits of set-up release nothing, teardown
never closes the descriptor, and a second set-up forgets what the first one acquired. So the live
resources are those of the contexts set up only as long as contexts are set up with success, each
once, and none is torn down.
-/

namespace GpuLibc

/-- A resource that has to be released. -/
inductive Resource
  /-- Memory from `hsa_amd_memory_pool_allocate`, by its address. -/
  | memory (addr : ℕ)
  /-- A descriptor from `io_uring_setup`. -/
  | descriptor (fd : ℕ)
deriving DecidableEq

/-- The fields of `uring_ctx_t` that record what is owned; a null pointer is 0. -/
structure CtxFields where
  ringFd : ℤ
  sqRingPtr : ℕ
  sqes : ℕ
  msgPool : ℕ
deriving DecidableEq

/-- What the calls made by one `setup_uring` return. A failing HSA call aborts the process, so the
allocations succeed. -/
structure SetupOutcome where
  ringMem : ℕ
  sqeMem : ℕ
  poolMem : ℕ
  /-- `io_uring_setup`: the descriptor, or a negative number. -/
  ringFd : ℤ
  /-- `io_uring_register` for `IORING_REGISTER_FILES`. -/
  registerFiles : ℤ
  /-- `io_uring_register` for `IORING_REGISTER_BUFFERS`. -/
  registerBuffers : ℤ
deriving DecidableEq

namespace SetupOutcome

/-- The memory is new and not null, and the descriptor is a new one. -/
def Fresh (o : SetupOutcome) (live : Finset Resource) : Prop :=
  (o.ringMem ≠ 0 ∧ o.sqeMem ≠ 0 ∧ o.poolMem ≠ 0) ∧
    (o.ringMem ≠ o.sqeMem ∧ o.ringMem ≠ o.poolMem ∧ o.sqeMem ≠ o.poolMem) ∧
    Resource.memory o.ringMem ∉ live ∧ Resource.memory o.sqeMem ∉ live ∧
    Resource.memory o.poolMem ∉ live ∧
    (0 ≤ o.ringFd → Resource.descriptor o.ringFd.toNat ∉ live)

instance (o : SetupOutcome) (live : Finset Resource) : Decidable (o.Fresh live) :=
  inferInstanceAs (Decidable (_ ∧ _))

/-- No call fails. -/
def Succeeds (o : SetupOutcome) : Prop :=
  0 ≤ o.ringFd ∧ o.registerFiles = 0 ∧ o.registerBuffers = 0

instance (o : SetupOutcome) : Decidable o.Succeeds := inferInstanceAs (Decidable (_ ∧ _))

/-- Everything that a set-up without failure acquires. -/
def acquired (o : SetupOutcome) : Finset Resource :=
  {.memory o.ringMem, .memory o.sqeMem, .memory o.poolMem, .descriptor o.ringFd.toNat}

end SetupOutcome

/-- The contexts, named by `κ`, and the resources. -/
structure Ledger (κ : Type*) where
  fields : κ → CtxFields
  live : Finset Resource
  /-- The resources released so far, in order. -/
  released : List Resource
  /-- What the last set-up that succeeded acquired, until the context is torn down. -/
  owned : κ → Finset Resource

/-- The calls of a history. -/
inductive LedgerOp (κ : Type*)
  | setup (c : κ) (o : SetupOutcome)
  | teardown (c : κ)

namespace Ledger

section

variable {κ : Type*}

/-- `hsa_amd_memory_pool_allocate`. -/
def allocate (addr : ℕ) (s : Ledger κ) : Ledger κ :=
  { s with live := insert (.memory addr) s.live }

/-- `io_uring_setup`. -/
def openRing (fd : ℤ) (s : Ledger κ) : Ledger κ :=
  if 0 ≤ fd then { s with live := insert (.descriptor fd.toNat) s.live } else s

/-- `if (ptr) hsa_amd_memory_pool_free(ptr)`. -/
def free (ptr : ℕ) (s : Ledger κ) : Ledger κ :=
  if ptr ≠ 0 then
    { s with live := s.live.erase (.memory ptr), released := s.released ++ [.memory ptr] }
  else s

/-- `teardown_uring`; the wake-up and the sleep release nothing. -/
def teardownUring (c : κ) (s : Ledger κ) : Ledger κ :=
  s.free (s.fields c).msgPool |>.free (s.fields c).sqRingPtr |>.free (s.fields c).sqes

/-- The context has been set up with success and not been torn down since. -/
def SetUp (s : Ledger κ) (c : κ) : Prop := s.owned c ≠ ∅

instance (s : Ledger κ) (c : κ) : Decidable (s.SetUp c) :=
  inferInstanceAs (Decidable (s.owned c ≠ ∅))

/-- The live resources are exactly those of the contexts that are set up. -/
def Exact (s : Ledger κ) : Prop := ∀ x, x ∈ s.live ↔ ∃ c, x ∈ s.owned c

/-- No context is set up, and nothing is live. -/
structure Initial (s : Ledger κ) : Prop where
  live : s.live = ∅
  owned : ∀ c, s.owned c = ∅

end

variable {κ : Type*} [DecidableEq κ]

/-- Assignments to the fields of a context. -/
def assign (c : κ) (f : CtxFields → CtxFields) (s : Ledger κ) : Ledger κ :=
  { s with fields := Function.update s.fields c (f (s.fields c)) }

/-- `setup_uring` and what it returns. -/
def setupUring (c : κ) (o : SetupOutcome) (s : Ledger κ) : Ledger κ × ℤ :=
  let s := s.allocate o.ringMem
  let s := s.allocate o.sqeMem
  let s := (s.openRing o.ringFd).assign c fun ctx => { ctx with ringFd := o.ringFd }
  if o.ringFd < 0 then (s, -1)
  else if o.registerFiles ≠ 0 then (s, -1)
  else
    let s := s.assign c fun ctx => { ctx with sqRingPtr := o.ringMem, sqes := o.sqeMem }
    let s := s.allocate o.poolMem
    let s := s.assign c fun ctx => { ctx with msgPool := o.poolMem }
    if o.registerBuffers ≠ 0 then (s, -1) else (s, 0)

/-- The step function of a history: what a call does, and who owns what after it. -/
def step (s : Ledger κ) : LedgerOp κ → Option (Ledger κ)
  | .setup c o =>
    if o.Fresh s.live then
      let p := s.setupUring c o
      some (if p.2 = 0 then { p.1 with owned := Function.update p.1.owned c o.acquired } else p.1)
    else none
  | .teardown c =>
    let s := s.teardownUring c
    some { s with owned := Function.update s.owned c ∅ }

end Ledger

/-- The ledger of `setup_uring` and `teardown_uring`. -/
def ledger (κ : Type*) [DecidableEq κ] : Machine (Ledger κ) (LedgerOp κ) where
  init := Ledger.Initial
  step := Ledger.step

namespace Ledger

/-! ## What is released and who owns what -/

section

variable {κ : Type*} {s : Ledger κ} {o : SetupOutcome}

/-- Freeing a pointer releases memory or nothing. -/
theorem exists_released_free (ptr : ℕ) (s : Ledger κ) :
    ∃ l : List ℕ, (s.free ptr).released = s.released ++ l.map Resource.memory := by
  rw [free]
  split_ifs
  · exact ⟨[ptr], rfl⟩
  · exact ⟨[], (List.append_nil _).symm⟩

/-- Teardown releases memory and nothing else. -/
theorem exists_released (c : κ) (s : Ledger κ) :
    ∃ l : List ℕ, (s.teardownUring c).released = s.released ++ l.map Resource.memory := by
  rw [teardownUring]
  obtain ⟨l₁, h₁⟩ := exists_released_free (s.fields c).msgPool s
  obtain ⟨l₂, h₂⟩ := exists_released_free (s.fields c).sqRingPtr (s.free (s.fields c).msgPool)
  obtain ⟨l₃, h₃⟩ := exists_released_free (s.fields c).sqes
    ((s.free (s.fields c).msgPool).free (s.fields c).sqRingPtr)
  refine ⟨l₁ ++ l₂ ++ l₃, ?_⟩
  rw [h₃, h₂, h₁]
  simp only [List.map_append, List.append_assoc]

/-- What a set-up without failure acquires was not live before. -/
theorem not_mem_live_of_acquired (hfresh : o.Fresh s.live) (h : o.Succeeds) {x : Resource}
    (hx : x ∈ o.acquired) : x ∉ s.live := by
  obtain ⟨-, -, hring, hsqe, hpool, hfd⟩ := hfresh
  simp only [SetupOutcome.acquired, Finset.mem_insert, Finset.mem_singleton] at hx
  rcases hx with rfl | rfl | rfl | rfl
  · exact hring
  · exact hsqe
  · exact hpool
  · exact hfd h.1

/-- The ledger while contexts are only set up, with success and each once. -/
structure Inv (s : Ledger κ) : Prop where
  exact : s.Exact
  disjoint : ∀ x c c', x ∈ s.owned c → x ∈ s.owned c' → c = c'
  descriptor : ∀ c, s.SetUp c → ∃ fd, Resource.descriptor fd ∈ s.owned c

theorem Inv.of_init (h : s.Initial) : s.Inv where
  exact x := by simp [h.live, h.owned]
  disjoint x c c' hx := by simp [h.owned] at hx
  descriptor c hc := absurd (h.owned c) hc

end

variable {κ : Type*} [DecidableEq κ] {s s' s₀ : Ledger κ} {a : LedgerOp κ} {as : List (LedgerOp κ)}
  {c : κ} {o : SetupOutcome}

/-! ## The property and its condition -/

/-- A context is torn down only when it is set up. -/
def teardownOfSetUp (s : Ledger κ) : LedgerOp κ → Prop
  | .setup _ _ => True
  | .teardown c => s.SetUp c

instance (s : Ledger κ) : ∀ a, Decidable (s.teardownOfSetUp a)
  | .setup _ _ => inferInstanceAs (Decidable True)
  | .teardown c => inferInstanceAs (Decidable (s.SetUp c))

/-- The call is a set-up without failure of a context that is not set up. -/
def succeedsOnNew (s : Ledger κ) : LedgerOp κ → Prop
  | .setup c o => o.Succeeds ∧ ¬ s.SetUp c
  | .teardown _ => False

instance (s : Ledger κ) : ∀ a, Decidable (s.succeedsOnNew a)
  | .setup c o => inferInstanceAs (Decidable (o.Succeeds ∧ ¬ s.SetUp c))
  | .teardown _ => inferInstanceAs (Decidable False)

/-- What a call promises: the live resources are those of the contexts set up, a set-up that
returns -1 leaves nothing behind, and teardown releases each resource of its context once. -/
structure Sound (s : Ledger κ) (a : LedgerOp κ) (s' : Ledger κ) : Prop where
  exact : s'.Exact
  failed : ∀ c o, a = .setup c o → (s.setupUring c o).2 = -1 → s'.live = s.live
  tornDown : ∀ c, a = .teardown c → ∀ x,
    s'.released.count x = s.released.count x + if x ∈ s.owned c then 1 else 0

/-! ## What one call does -/

theorem live_setupUring (h : o.Succeeds) (c : κ) (s : Ledger κ) :
    (s.setupUring c o).2 = 0 ∧ (s.setupUring c o).1.live = o.acquired ∪ s.live := by
  obtain ⟨hfd, hfiles, hbuffers⟩ := h
  rw [setupUring, if_neg (by omega), if_neg (not_not.mpr hfiles), if_neg (not_not.mpr hbuffers)]
  refine ⟨rfl, ?_⟩
  simp only [assign, allocate, openRing, if_pos hfd, SetupOutcome.acquired]
  -- the same resources, in another order
  ext x
  simp only [Finset.mem_insert, Finset.mem_union, Finset.mem_singleton]
  tauto

/-- Set-up does not touch what is recorded of the owners. -/
theorem owned_setupUring (c : κ) (o : SetupOutcome) (s : Ledger κ) :
    (s.setupUring c o).1.owned = s.owned := by
  simp only [setupUring, openRing]
  split_ifs <;> rfl

/-- A set-up that fails returns -1, with at least the memory of the ring alive. -/
theorem setupUring_of_not_succeeds (h : ¬ o.Succeeds) (c : κ) (s : Ledger κ) :
    (s.setupUring c o).2 = -1 ∧ Resource.memory o.ringMem ∈ (s.setupUring c o).1.live := by
  -- opening the ring takes nothing away
  have hopen : ∀ t : Ledger κ, t.live ⊆ (t.openRing o.ringFd).live := by
    intro t
    rw [openRing]
    split_ifs
    · exact Finset.subset_insert _ _
    · exact Finset.Subset.refl _
  have hring : Resource.memory o.ringMem ∈
      (((s.allocate o.ringMem).allocate o.sqeMem).openRing o.ringFd).live := by
    apply hopen
    exact Finset.mem_insert_of_mem (Finset.mem_insert_self _ _)
  rw [setupUring]
  -- the three failure exits in turn
  by_cases hfd : o.ringFd < 0
  · rw [if_pos hfd]
    exact ⟨rfl, hring⟩
  · rw [if_neg hfd]
    by_cases hfiles : o.registerFiles ≠ 0
    · rw [if_pos hfiles]
      exact ⟨rfl, hring⟩
    · have hbuffers : o.registerBuffers ≠ 0 := fun hbuffers =>
        h ⟨not_lt.mp hfd, not_not.mp hfiles, hbuffers⟩
      rw [if_neg hfiles, if_pos hbuffers]
      exact ⟨rfl, Finset.mem_insert_of_mem hring⟩

theorem step_setup (h : (ledger κ).step s (.setup c o) = some s') :
    o.Fresh s.live ∧
      s' = if (s.setupUring c o).2 = 0 then
        { (s.setupUring c o).1 with
          owned := Function.update (s.setupUring c o).1.owned c o.acquired }
      else (s.setupUring c o).1 := by
  change s.step (.setup c o) = some s' at h
  rw [step] at h
  split at h
  next hfresh => exact ⟨hfresh, (Option.some.inj h).symm⟩
  next => cases h

/-- A set-up without failure: its resources are added to the live ones and recorded. -/
theorem step_setup_of_succeeds (h : o.Succeeds)
    (hs : (ledger κ).step s (.setup c o) = some s') :
    o.Fresh s.live ∧ s'.live = o.acquired ∪ s.live ∧
      s'.owned = Function.update s.owned c o.acquired := by
  obtain ⟨hfresh, hs'⟩ := step_setup hs
  obtain ⟨hret, hlive⟩ := live_setupUring h c s
  rw [if_pos hret, owned_setupUring] at hs'
  refine ⟨hfresh, ?_, ?_⟩
  · rw [hs']
    exact hlive
  · rw [hs']

/-! ## What holds as long as every call succeeds -/

theorem Inv.step (h : s.Inv) (hg : s.succeedsOnNew a)
    (hs : (ledger κ).step s a = some s') : s'.Inv := by
  cases a with
  | teardown c => exact hg.elim
  | setup c o =>
    obtain ⟨hsucceeds, hnew⟩ := hg
    obtain ⟨hfresh, hlive, howned⟩ := step_setup_of_succeeds hsucceeds hs
    have hempty : s.owned c = ∅ := not_not.mp hnew
    -- what a context owns afterwards
    have hcases {x : Resource} {d : κ} (hx : x ∈ s'.owned d) :
        d = c ∧ x ∈ o.acquired ∨ d ≠ c ∧ x ∈ s.owned d := by
      rw [howned] at hx
      by_cases hd : d = c
      · rw [hd, Function.update_self] at hx
        exact .inl ⟨hd, hx⟩
      · rw [Function.update_of_ne hd] at hx
        exact .inr ⟨hd, hx⟩
    -- what is acquired is new, so no context owns it
    have hnot {x : Resource} {d : κ} (hx : x ∈ o.acquired) : x ∉ s.owned d := fun hd =>
      not_mem_live_of_acquired hfresh hsucceeds hx ((h.exact x).mpr ⟨d, hd⟩)
    refine { exact := ?exact, disjoint := ?disjoint, descriptor := ?descriptor }
    case exact =>
      intro x
      rw [hlive, Finset.mem_union, h.exact x]
      constructor
      · rintro (hx | ⟨d, hx⟩)
        · exact ⟨c, by rwa [howned, Function.update_self]⟩
        · have hd : d ≠ c := by
            rintro rfl
            simp [hempty] at hx
          exact ⟨d, by rwa [howned, Function.update_of_ne hd]⟩
      · rintro ⟨d, hx⟩
        rcases hcases hx with ⟨-, hx⟩ | ⟨-, hx⟩
        · exact .inl hx
        · exact .inr ⟨d, hx⟩
    case disjoint =>
      intro x d d' hx hx'
      rcases hcases hx with ⟨rfl, hx⟩ | ⟨-, hx⟩ <;> rcases hcases hx' with ⟨rfl, hx'⟩ | ⟨-, hx'⟩
      · rfl
      · exact absurd hx' (hnot hx)
      · exact absurd hx (hnot hx')
      · exact h.disjoint x d d' hx hx'
    case descriptor =>
      intro d hd
      by_cases hdc : d = c
      · refine ⟨o.ringFd.toNat, ?_⟩
        rw [howned, hdc, Function.update_self]
        simp [SetupOutcome.acquired]
      · have hold : s.owned d ≠ ∅ := by
          rw [SetUp, howned, Function.update_of_ne hdc] at hd
          exact hd
        rw [howned, Function.update_of_ne hdc]
        exact h.descriptor d hold

/-- A set-up that fails leaves the memory of the ring behind. -/
theorem not_sound_of_failed (h : ¬ o.Succeeds)
    (hs : (ledger κ).step s (.setup c o) = some s') : ¬ Sound s (.setup c o) s' := by
  intro hsound
  obtain ⟨hfresh, hs'⟩ := step_setup hs
  obtain ⟨hret, hmem⟩ := setupUring_of_not_succeeds h c s
  -- nothing is recorded, and the promise leaves no trace of the call
  rw [if_neg (by omega)] at hs'
  rw [← hs', hsound.failed c o rfl hret] at hmem
  exact hfresh.2.2.1 hmem

/-- A second set-up forgets the resources of the first. -/
theorem not_sound_of_setUp (hinv : s.Inv) (h : o.Succeeds) (hc : s.SetUp c)
    (hs : (ledger κ).step s (.setup c o) = some s') : ¬ Sound s (.setup c o) s' := by
  intro hsound
  obtain ⟨hfresh, hlive, howned⟩ := step_setup_of_succeeds h hs
  obtain ⟨x, hx⟩ := Finset.nonempty_iff_ne_empty.mpr hc
  have hold : x ∈ s.live := (hinv.exact x).mpr ⟨c, hx⟩
  have hnew : x ∈ s'.live := by
    rw [hlive]
    exact Finset.mem_union_right _ hold
  -- it is still alive, but neither what `c` owns now nor another context's
  obtain ⟨d, hd⟩ := (hsound.exact x).mp hnew
  rw [howned] at hd
  by_cases hdc : d = c
  · rw [hdc, Function.update_self] at hd
    exact not_mem_live_of_acquired hfresh h hd hold
  · rw [Function.update_of_ne hdc] at hd
    exact hdc (hinv.disjoint x d c hd hx)

/-- Teardown does not close the descriptor of the ring. -/
theorem not_sound_of_teardown (hinv : s.Inv) (hc : s.SetUp c)
    (hs : (ledger κ).step s (.teardown c) = some s') : ¬ Sound s (.teardown c) s' := by
  intro hsound
  obtain ⟨fd, hfd⟩ := hinv.descriptor c hc
  obtain ⟨l, hreleased⟩ := exists_released c s
  obtain rfl := Option.some.inj hs
  have hcount := hsound.tornDown c rfl (.descriptor fd)
  -- only memory is released
  have hnone : (l.map Resource.memory).count (.descriptor fd) = 0 := by
    rw [List.count_eq_zero]
    simp
  dsimp only at hcount
  rw [hreleased, List.count_append, hnone, if_pos hfd] at hcount
  omega

/-- A call keeps its promises exactly when it is a set-up without failure of a new context. -/
theorem sound_iff (h : s.Inv) (hg : s.teardownOfSetUp a)
    (hs : (ledger κ).step s a = some s') : Sound s a s' ↔ s.succeedsOnNew a := by
  constructor
  · intro hsound
    cases a with
    | setup c o =>
      refine ⟨?_, fun hc => ?_⟩
      · -- a failing set-up leaks the memory of the ring
        by_contra hfails
        exact not_sound_of_failed hfails hs hsound
      · by_cases hsucceeds : o.Succeeds
        · exact not_sound_of_setUp h hsucceeds hc hs hsound
        · exact not_sound_of_failed hsucceeds hs hsound
    | teardown c => exact not_sound_of_teardown h hg hs hsound
  · intro hok
    refine { exact := (h.step hok hs).exact, failed := ?failed, tornDown := ?tornDown }
    case failed =>
      rintro c o rfl hret
      rw [(live_setupUring hok.1 c s).1] at hret
      exact absurd hret (by decide)
    case tornDown =>
      rintro c rfl
      exact hok.elim

/-- For every history in which contexts are torn down only when they are set up: all its calls
keep their promises if and only if all of them are set-ups without failure of contexts that are
not set up. -/
theorem sound_along_iff {κ : Type*} [DecidableEq κ] {s₀ s : Ledger κ} {as : List (LedgerOp κ)}
    (h : (ledger κ).Runs teardownOfSetUp s₀ as s) :
    (ledger κ).Along Sound s₀ as ↔ (ledger κ).Runs succeedsOnNew s₀ as s :=
  h.along_iff Inv.of_init (fun _ _ _ hinv hg hs => hinv.step hg hs)
    fun _ _ _ hinv hg hs => sound_iff hinv hg hs

/-- The outcome of a set-up without failure, with descriptor `fd` and memory from `addr` on. -/
def demoOutcome (addr : ℕ) (fd : ℤ) : SetupOutcome :=
  { ringMem := addr, sqeMem := addr + 1, poolMem := addr + 2, ringFd := fd
    registerFiles := 0, registerBuffers := 0 }

/-- Nothing set up, with cleared contexts. -/
def empty (κ : Type*) : Ledger κ :=
  { fields := fun _ => { ringFd := 0, sqRingPtr := 0, sqes := 0, msgPool := 0 }
    live := ∅
    released := []
    owned := fun _ => ∅ }

theorem initial_empty (κ : Type*) : (empty κ).Initial := ⟨rfl, fun _ => rfl⟩

/-- Two contexts are set up one after the other. -/
theorem sound_along_twoContexts :
    (ledger ℕ).Along Sound (empty ℕ)
      [.setup 0 (demoOutcome 0x1000 3), .setup 1 (demoOutcome 0x2000 4)] := by
  have hrun : (ledger ℕ).Runs teardownOfSetUp (empty ℕ)
      [.setup 0 (demoOutcome 0x1000 3), .setup 1 (demoOutcome 0x2000 4)] _ :=
    .of_runUnder (initial_empty ℕ) (by decide +kernel)
  have hgood : (ledger ℕ).Runs succeedsOnNew (empty ℕ)
      [.setup 0 (demoOutcome 0x1000 3), .setup 1 (demoOutcome 0x2000 4)] _ :=
    .of_runUnder (initial_empty ℕ) (by decide +kernel)
  exact (sound_along_iff hrun).mpr hgood

/-- A context that is set up and torn down leaves the descriptor of its ring alive. -/
theorem not_sound_along : ¬ ∀ (s₀ s : Ledger ℕ) (as : List (LedgerOp ℕ)),
    (ledger ℕ).Runs teardownOfSetUp s₀ as s → (ledger ℕ).Along Sound s₀ as := by
  intro h
  have hrun : (ledger ℕ).Runs teardownOfSetUp (empty ℕ)
      [.setup 0 (demoOutcome 0x1000 3), .teardown 0] _ :=
    .of_runUnder (initial_empty ℕ) (by decide +kernel)
  -- the promise of the second call, after the first one
  have hsound := h _ _ _ hrun [.setup 0 (demoOutcome 0x1000 3)] (.teardown 0) [] _ _ rfl rfl rfl
  have hcount := hsound.tornDown 0 rfl (.descriptor 3)
  exact absurd hcount (by decide +kernel)

end Ledger

end GpuLibc
