import GpuLibc.Uring.Completion
import GpuLibc.Uring.PublishedTail

/-!
# Teardown

The three `main` functions that end with `teardown_uring`, as machines around callers and kernel:
the calls, then the host operations up to the end of `teardown_uring`, with kernel steps in
between at will. Sleeping and waking the polling thread do not make the kernel finish, and
`io_uring_enter` with `min_complete = 1` waits for one completion. So the memory is freed under
the kernel unless there was no call, or one call before a wait for one completion.
-/

namespace GpuLibc

/-- The blocks of memory that `teardown_uring` frees. -/
inductive Region
  | msgPool
  | sqRing
  | sqes
deriving DecidableEq

/-- The operations of the host after its last call. -/
inductive HostOp
  /-- `io_uring_enter(ring_fd, 0, 0, IORING_ENTER_SQ_WAKEUP)`, also as part of `uring_flush`. -/
  | enterWakeup
  /-- `io_uring_enter` with `min_complete = 1` and `IORING_ENTER_GETEVENTS`. -/
  | waitCompletion
  /-- `uring_process_completions`: everything posted so far is reaped. -/
  | processCompletions
  | sleep
  /-- `hsa_amd_memory_unlock(ctx->msg_pool)`. -/
  | unlock
  | free (region : Region)
deriving DecidableEq

/-- The programs whose `main` makes calls and tears the context down. -/
inductive Main
  | gpuSvmDemo
  | ioUringCpuMt
  | ioUringSvmCpuOnly
deriving DecidableEq

namespace Main

/-- The copy of the routine that the program calls. -/
def variant : Main → Variant
  | .gpuSvmDemo => .gpuSvmDemo
  | .ioUringCpuMt => .ioUringCpuMt
  | .ioUringSvmCpuOnly => .ioUringSvmCpuOnly

/-- The calls come from threads of their own. -/
def threads : Main → Bool
  | .ioUringCpuMt => true
  | .gpuSvmDemo | .ioUringSvmCpuOnly => false

/-- What the host does after the last call has returned. -/
def closing : Main → List HostOp
  | .gpuSvmDemo => [.enterWakeup, .sleep, .free .msgPool, .free .sqRing, .free .sqes]
  | .ioUringCpuMt => [.unlock, .free .msgPool]
  | .ioUringSvmCpuOnly =>
    [.enterWakeup, .waitCompletion, .processCompletions, .free .msgPool, .free .sqRing,
      .free .sqes]

end Main

/-- A program in execution: `closing` is `none` while calls are made, then the host operations
left. -/
structure Host where
  state : State
  closing : Option (List HostOp)

/-- The steps of a program. -/
inductive HostLabel
  /-- A step of a caller, of the kernel or of the waker thread. -/
  | system (a : Label)
  /-- The last call has returned, and the calling threads are joined. -/
  | join
  /-- The next host operation. -/
  | closing

/-- The effect of a host operation; waiting for a completion blocks until there is one. -/
def HostOp.run (s : State) : HostOp → Option State
  | .enterWakeup => s.pollerStep .enterWakeup
  | .waitCompletion => if s.reaped < s.posted.length then some s else none
  | .processCompletions => some { s with reaped := s.posted.length }
  | .sleep | .unlock | .free _ => some s

/-- New calls are made before the join, one after the other or by threads; only the program with
threads has a waker thread, which wakes the polling thread at any time. -/
def Main.allows (m : Main) (h : Host) : Label → Prop
  | .claim _ => h.closing = none ∧ (m.threads = true ∨ h.state.Quiescent)
  | .poller .enterWakeup => m.threads = true
  | _ => True

instance (m : Main) (h : Host) : ∀ a, Decidable (m.allows h a)
  | .claim _ => inferInstanceAs (Decidable (_ ∧ _))
  | .poller .enterWakeup => inferInstanceAs (Decidable (m.threads = true))
  | .poller .needWakeup | .poller .recheck | .poller .sleep => inferInstanceAs (Decidable True)
  | .call _ | .take | .write _ | .complete _ => inferInstanceAs (Decidable True)

/-- The step function of a program. -/
def Host.step (m : Main) (r : Ring) (h : Host) : HostLabel → Option Host
  | .system a =>
    if m.allows h a then
      (h.state.step m.variant r a).map fun s => { h with state := s }
    else none
  | .join =>
    if h.closing = none ∧ h.state.Quiescent then some { h with closing := some m.closing }
    else none
  | .closing =>
    match h.closing with
    | some (op :: ops) => (op.run h.state).map fun s => { state := s, closing := some ops }
    | _ => none

/-- A program as a machine; it starts after `setup_uring`. -/
def program (m : Main) (r : Ring) : Machine Host HostLabel where
  init h := Initial h.state ∧ h.closing = none
  step h a := h.step m r a

/-- Every published entry has been taken, and every taken request has completed. -/
def Drained (s : State) : Prop :=
  s.published ≤ s.reqs.length ∧ ∀ q ∈ s.reqs, q.completed = true

/-- In all runs from `s₀` with `n` calls, the kernel is done with the context whenever the next
operation of the host is to free a part of it. -/
def SafeTeardown (m : Main) (r : Ring) (s₀ : State) (n : ℕ) : Prop :=
  ∀ (h : Host) (as : List HostLabel) (region : Region) (ops : List HostOp),
    (program m r).Runs (fun _ _ => True) ⟨s₀, none⟩ as h → h.state.calls.length = n →
      h.closing = some (.free region :: ops) → Drained h.state

/-- The number of calls after which the program may free the memory. -/
def Main.safeCalls : Main → ℕ
  | .gpuSvmDemo | .ioUringCpuMt => 0
  | .ioUringSvmCpuOnly => 1

/-! ## What holds along a run -/

variable {v : Variant} {m : Main} {r : Ring} {base : Word} {s s' : State} {h h' : Host} {n : ℕ}

/-- No step takes back a call or a completion. -/
theorem length_le_of_step {a : Label} (hs : (system v r).step s a = some s') :
    s.calls.length ≤ s'.calls.length ∧ s.posted.length ≤ s'.posted.length := by
  cases a with
  | claim msg => obtain rfl := step_claim hs; simp
  | call i => obtain ⟨c, sh', c', -, -, rfl⟩ := step_call hs; simp
  | take => obtain ⟨-, -, rfl⟩ := step_take hs; simp
  | write j => obtain ⟨q, -, -, rfl⟩ := step_write hs; simp
  | complete j => obtain ⟨q, _, -, -, -, rfl⟩ := step_complete hs; simp
  | poller a => rw [step_poller hs]; simp

/-- A single call cannot be overtaken. -/
theorem forward_of_length_le_one {a : Label} (hs : (system v r).step s a = some s')
    (hlen : s'.calls.length ≤ 1) : Forward r s a := by
  have hold := (length_le_of_step hs).1
  refine ⟨?_, ?_⟩
  · cases a with
    | claim msg =>
      obtain rfl := step_claim hs
      have hpos := r.entries_pos
      simp only [List.length_append, List.length_singleton] at hlen
      show s.calls.length < s.reqs.length + r.entries
      omega
    | _ => trivial
  · cases a with
    | call i =>
      intro _ c hc
      -- no call follows the only one
      rw [List.drop_eq_nil_of_le (by omega)] at hc
      cases hc
    | _ => trivial

/-- The operations left are a rest of those of the program, and a host that is past the wait for a
completion has found one. -/
def ClosingInv (m : Main) (s : State) : Option (List HostOp) → Prop
  | none => True
  | some ops =>
    ops <:+ m.closing ∧
      (.waitCompletion ∈ m.closing → .waitCompletion ∈ ops ∨ 0 < s.posted.length)

theorem ClosingInv.mono {closing : Option (List HostOp)} (h : ClosingInv m s closing)
    (hle : s.posted.length ≤ s'.posted.length) : ClosingInv m s' closing := by
  cases closing with
  | none => trivial
  | some ops => exact ⟨h.1, fun hmem => (h.2 hmem).imp_right fun hpos => hpos.trans_le hle⟩

/-- An operation other than the wait keeps what is known about it. -/
theorem ClosingInv.next {op : HostOp} {ops : List HostOp} (h : ClosingInv m s (some (op :: ops)))
    (hne : op ≠ .waitCompletion) : ClosingInv m s (some ops) := by
  refine ⟨(List.suffix_cons op ops).trans h.1, fun hmem => ?_⟩
  -- the wait is still ahead or something has been posted
  rcases h.2 hmem with hwait | hpos
  · rcases List.mem_cons.mp hwait with heq | hwait
    · exact absurd heq.symm hne
    · exact .inl hwait
  · exact .inr hpos

namespace Host

/-- What holds along a run of a program: with at most one call the counters are in order. -/
structure Inv (m : Main) (r : Ring) (base : Word) (h : Host) : Prop where
  few : h.state.calls.length ≤ 1 → ∃ p, Forward.Inv r.entries base h.state p
  posted : PostedOnce h.state
  closing : ClosingInv m h.state h.closing

namespace Inv

theorem of_init (hinit : Initial h.state) (hclosing : h.closing = none) :
    Inv m r h.state.shared.sringTail h where
  few _ := ⟨0, Forward.Inv.of_init hinit⟩
  posted := by simp [PostedOnce, hinit.posted, hinit.reqs]
  closing := by rw [hclosing]; trivial

/-- A step of callers and kernel, whatever the host is doing. -/
theorem of_step (hinv : Inv m r base h) {a : Label} (hs : (system v r).step h.state a = some s) :
    Inv m r base { h with state := s } where
  few hlen := by
    have hold := (length_le_of_step hs).1
    obtain ⟨p, hforward⟩ := hinv.few (hold.trans hlen)
    exact hforward.step (forward_of_length_le_one hs hlen) hs
  posted := hinv.posted.step hs
  closing := hinv.closing.mono (length_le_of_step hs).2

/-- A host operation. -/
theorem of_run {op : HostOp} {ops : List HostOp} (hinv : Inv m r base h)
    (hclosing : h.closing = some (op :: ops)) (hs : op.run h.state = some s) :
    Inv m r base { state := s, closing := some ops } := by
  have hleft : ClosingInv m h.state (some (op :: ops)) := hclosing ▸ hinv.closing
  cases op with
  | enterWakeup =>
    -- the wake-up is a step of the idle protocol
    have hstep : (system m.variant r).step h.state (.poller .enterWakeup) = some s := hs
    have hnext := hinv.of_step hstep
    exact ⟨hnext.few, hnext.posted, (hleft.next (by simp)).mono (length_le_of_step hstep).2⟩
  | waitCompletion =>
    simp only [HostOp.run] at hs
    split at hs
    next hpos =>
      -- the wait is over, so something was posted
      cases hs
      exact ⟨hinv.few, hinv.posted, (List.suffix_cons _ _).trans hleft.1,
        fun _ => .inr ((Nat.zero_le _).trans_lt hpos)⟩
    next => cases hs
  | processCompletions =>
    -- reaping changes neither the counters nor what was posted
    cases hs
    refine ⟨fun hlen => ?_, hinv.posted, (hleft.next (by simp)).mono le_rfl⟩
    obtain ⟨p, hforward⟩ := hinv.few hlen
    exact ⟨p, hforward.of_eq rfl rfl ⟨_, rfl⟩⟩
  | sleep | unlock | free =>
    cases hs
    exact ⟨hinv.few, hinv.posted, hleft.next (by simp)⟩

theorem step {a : HostLabel} (hinv : Inv m r base h) (hs : (program m r).step h a = some h') :
    Inv m r base h' := by
  cases a with
  | system a =>
    change h.step m r (.system a) = some h' at hs
    rw [Host.step] at hs
    split at hs
    next =>
      obtain ⟨s, hstep, rfl⟩ := Option.map_eq_some_iff.mp hs
      exact hinv.of_step (v := m.variant) hstep
    next => cases hs
  | join =>
    change h.step m r .join = some h' at hs
    rw [Host.step] at hs
    split at hs
    next =>
      cases hs
      exact ⟨hinv.few, hinv.posted, List.suffix_rfl, fun hmem => .inl hmem⟩
    next => cases hs
  | closing =>
    change h.step m r .closing = some h' at hs
    rw [Host.step] at hs
    split at hs
    next op ops hclosing =>
      obtain ⟨s, hrun, rfl⟩ := Option.map_eq_some_iff.mp hs
      exact hinv.of_run hclosing hrun
    next => cases hs

end Inv

theorem inv_of_runs {s₀ : State} {as : List HostLabel}
    (hrun : (program m r).Runs (fun _ _ => True) ⟨s₀, none⟩ as h) :
    Inv m r s₀.shared.sringTail h :=
  hrun.invariant (fun hinit => Inv.of_init hinit.1 hinit.2) fun _ _ _ hinv _ hs => hinv.step hs

end Host

/-- At most one call, and one completion waited for if there was one, leave the kernel nothing to
do. -/
theorem drained_of_few (hinv : Host.Inv m r base h) (hn : h.state.calls.length ≤ m.safeCalls)
    {region : Region} {ops : List HostOp} (hfree : h.closing = some (.free region :: ops)) :
    Drained h.state := by
  have hsafe : m.safeCalls ≤ 1 := by
    cases m <;> decide
  obtain ⟨p, hforward⟩ := hinv.few (hn.trans hsafe)
  have htaken := hforward.taken_le.trans hforward.le_claimed
  have hpublished : h.state.published ≤ h.state.calls.length := List.countP_le_length
  have hcount : h.state.reqs.countP Request.completed ≤ h.state.reqs.length :=
    List.countP_le_length
  -- every request has completed as soon as one call means one completion
  suffices hposted : h.state.calls.length ≤ h.state.posted.length by
    rw [hinv.posted] at hposted
    exact ⟨by omega, List.countP_eq_length.mp (by omega)⟩
  have hleft : ClosingInv m h.state (some (.free region :: ops)) := hfree ▸ hinv.closing
  cases m with
  | gpuSvmDemo | ioUringCpuMt =>
    -- there was no call
    exact hn.trans (Nat.zero_le _)
  | ioUringSvmCpuOnly =>
    rcases hleft.2 (by decide) with hwait | hpos
    · -- no wait follows the first free
      have hrest := hleft.1
      simp [Main.closing, List.suffix_cons_iff] at hrest
      rcases hrest with ⟨rfl, rfl⟩ | ⟨rfl, rfl⟩ | ⟨rfl, rfl⟩ <;> simp at hwait
    · exact hn.trans hpos

/-! ## Runs that free too early -/

/-- Runs of callers and kernel are runs of the program before the join. -/
theorem reaches_of_system (hreach : (system m.variant r).Reaches Undisturbed s s') :
    (program m r).Reaches (fun _ _ => True) ⟨s, none⟩ ⟨s', none⟩ := by
  -- along the run, with the host in front of the join
  induction hreach with
  | refl => exact .refl
  | @tail t t' _ hnext ih =>
    obtain ⟨a, ⟨hsequential, hawake⟩, hs⟩ := hnext
    have hallows : m.allows ⟨t, none⟩ a := by
      cases a with
      | claim msg => exact ⟨rfl, .inr hsequential⟩
      | poller a => exact hawake.elim
      | _ => trivial
    have hstep : (program m r).step ⟨t, none⟩ (.system a) = some ⟨t', none⟩ := by
      show Host.step m r ⟨t, none⟩ (.system a) = _
      rw [Host.step, if_pos hallows]
      exact Option.map_eq_some_iff.mpr ⟨t', hs, rfl⟩
    exact ih.trans (.single trivial hstep)

/-- Host operations that are not blocked can follow each other without a step of the kernel. -/
theorem reaches_of_ops (ops rest : List HostOp)
    (hrun : ops.foldlM HostOp.run s = some s') :
    (program m r).Reaches (fun _ _ => True) ⟨s, some (ops ++ rest)⟩ ⟨s', some rest⟩ := by
  -- along the operations, each of which is one step of the program
  induction ops generalizing s with
  | nil =>
    obtain rfl : s = s' := Option.some.inj hrun
    exact .refl
  | cons op ops ih =>
    obtain ⟨t, ht, hrest⟩ := Option.bind_eq_some_iff.mp hrun
    have hstep : (program m r).step ⟨s, some (op :: (ops ++ rest))⟩ .closing =
        some ⟨t, some (ops ++ rest)⟩ := by
      show (op.run s).map _ = _
      rw [ht]
      rfl
    exact .trans (.single trivial hstep) (ih hrest)

/-- Once no call is in progress, and with a completion to wait for, the host can go on to the first
free without a step of the kernel. -/
theorem exists_free (hquiet : s.Quiescent)
    (hposted : m = .ioUringSvmCpuOnly → s.reaped < s.posted.length) :
    ∃ h ops, (program m r).Reaches (fun _ _ => True) ⟨s, none⟩ h ∧
      h.closing = some (.free .msgPool :: ops) ∧ h.state.calls = s.calls ∧
      h.state.reqs = s.reqs := by
  have hjoin : (program m r).Reaches (fun _ _ => True) ⟨s, none⟩ ⟨s, some m.closing⟩ :=
    .single (a := .join) trivial (if_pos ⟨rfl, hquiet⟩)
  cases m with
  | gpuSvmDemo =>
    have hops := reaches_of_ops (m := .gpuSvmDemo) (r := r) (s := s) [.enterWakeup, .sleep]
      [.free .msgPool, .free .sqRing, .free .sqes] rfl
    exact ⟨_, _, hjoin.trans hops, rfl, rfl, rfl⟩
  | ioUringCpuMt =>
    have hops := reaches_of_ops (m := .ioUringCpuMt) (r := r) (s := s)
      [.unlock] [.free .msgPool] rfl
    exact ⟨_, _, hjoin.trans hops, rfl, rfl, rfl⟩
  | ioUringSvmCpuOnly =>
    have hwait : s.reaped < s.posted.length := hposted rfl
    let woken : State :=
      { s with
        shared := { s.shared with sringFlags := s.shared.sringFlags &&& ~~~ioringSqNeedWakeup }
        poller := .polling }
    -- the wake-up lets the host wait for what is posted already
    have hrun : [.enterWakeup, .waitCompletion, .processCompletions].foldlM HostOp.run s =
        some { woken with reaped := s.posted.length } := by
      show (HostOp.run woken .waitCompletion).bind _ = _
      rw [HostOp.run, if_pos hwait]
      rfl
    have hops := reaches_of_ops (m := .ioUringSvmCpuOnly) (r := r) _
      [.free .msgPool, .free .sqRing, .free .sqes] hrun
    exact ⟨_, _, hjoin.trans hops, rfl, rfl, rfl⟩

/-! ## When teardown is safe -/

/-- The memory is freed only after the kernel is done with it exactly when there was no call, or,
with a wait for one completion, at most one. -/
theorem safeTeardown_iff (m : Main) (r : Ring) (s₀ : State) (hinit : Initial s₀) (n : ℕ) :
    SafeTeardown m r s₀ n ↔ n ≤ m.safeCalls := by
  constructor
  · intro hsafe
    by_contra hlt
    obtain ⟨k, rfl⟩ : ∃ k, n = k + 1 := ⟨n - 1, by omega⟩
    -- all calls but the last go through a round, and the kernel does not take the last entry
    obtain ⟨s, hreach, hidle⟩ := exists_idle (v := m.variant) (r := r) hinit helloA k
    obtain ⟨t, hcall, honly, hquiet, hcalls, -, -⟩ :=
      hidle.exists_call (v := m.variant) (r := r) helloA
    have hposted : m = .ioUringSvmCpuOnly → t.reaped < t.posted.length := by
      rintro rfl
      rw [honly.reaped, honly.posted, hidle.reaped, hidle.posted]
      simp only [Main.safeCalls] at hlt
      omega
    obtain ⟨h, ops, hclosing, hfree, hhcalls, hhreqs⟩ := exists_free (r := r) hquiet hposted
    have hinit' : (program m r).init ⟨s₀, none⟩ := ⟨hinit, rfl⟩
    obtain ⟨as, hrun⟩ := (Machine.Runs.start hinit').exists_of_reaches
      ((reaches_of_system (hreach.trans hcall)).trans hclosing)
    -- all calls are published, and one of the entries is untaken
    have hlen : h.state.calls.length = k + 1 := by
      rw [hhcalls, hcalls, List.length_append, hidle.calls, List.length_singleton]
    have htaken := (hsafe h as .msgPool ops hrun hlen hfree).1
    have hpublished : h.state.published = k + 1 := by
      rw [State.published, List.countP_eq_length.mpr, hlen]
      intro c hc
      exact hquiet.published (hhcalls ▸ hc)
    rw [hpublished, hhreqs, honly.reqs, hidle.reqs] at htaken
    omega
  · rintro hn h as region ops hrun rfl hfree
    exact drained_of_few (Host.inv_of_runs hrun) hn hfree

theorem safeTeardown_one : SafeTeardown .ioUringSvmCpuOnly demoRing .afterSetup 1 :=
  (safeTeardown_iff .ioUringSvmCpuOnly demoRing .afterSetup State.initial_afterSetup 1).mpr le_rfl

/-- One call of the demo; the host goes on to the first free while the entry is still in the
ring. -/
def freedEarly : List HostLabel :=
  (.claim helloA :: callSteps 0).map HostLabel.system ++ [.join, .closing, .closing]

/-- Nothing makes the kernel finish before the memory is freed. -/
theorem not_safeTeardown : ¬ ∀ (m : Main) (r : Ring) (s₀ : State) (n : ℕ), Initial s₀ →
    SafeTeardown m r s₀ n := by
  intro h
  have hinit : (program .gpuSvmDemo demoRing).init ⟨.afterSetup, none⟩ :=
    ⟨State.initial_afterSetup, rfl⟩
  have hrun := h .gpuSvmDemo demoRing .afterSetup 1 State.initial_afterSetup _ freedEarly .msgPool
    [.free .sqRing, .free .sqes] (.of_runUnder hinit (by decide +kernel)) (by decide +kernel)
    (by decide +kernel)
  exact absurd hrun.1 (by decide +kernel)

end GpuLibc
