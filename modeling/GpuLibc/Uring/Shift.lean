import GpuLibc.Uring.Serial

/-!
# Where the counters start

Tickets, head and tail are words that wrap around. The routine and the kernel look at them in two
ways only: as differences, and through the mask. So moving all of them by a number of whole rounds
of the ring moves them through every run, and shows nowhere else. In particular no run notices
where its counters pass `2 ^ 32`.

* `State.shift`: all counters moved by the same amount.
* `step_shift`: the steps of the system commute with it.
* `runs_shift_iff`: its runs are the runs of counters that start within the first round.
-/

namespace GpuLibc

variable {v : Variant} {r : Ring} {δ : Word} {s : State}

/-! ## Moving the counters -/

def Call.shift (δ : Word) (c : Call) : Call := { c with tail := c.tail + δ }

def Request.shift (δ : Word) (q : Request) : Request := { q with pos := q.pos + δ }

def Shared.shift (δ : Word) (sh : Shared) : Shared :=
  { sh with
    sqTailCache := sh.sqTailCache + δ
    sringHead := sh.sringHead + δ
    sringTail := sh.sringTail + δ }

/-- All tickets and ring positions moved by `δ`; slots, windows, texts, completions and the phases
of the calls are as before. -/
def State.shift (δ : Word) (s : State) : State :=
  { s with
    shared := s.shared.shift δ
    calls := s.calls.map (Call.shift δ)
    reqs := s.reqs.map (Request.shift δ) }

@[simp]
theorem Call.shift_phase (δ : Word) (c : Call) : (c.shift δ).phase = c.phase := rfl

@[simp]
theorem State.shift_poller (δ : Word) (s : State) : (s.shift δ).poller = s.poller := rfl

@[simp]
theorem State.shift_shared (δ : Word) (s : State) : (s.shift δ).shared = s.shared.shift δ := rfl

theorem Shared.shift_shift (δ ε : Word) (sh : Shared) :
    (sh.shift δ).shift ε = sh.shift (δ + ε) := by
  simp only [Shared.shift, BitVec.add_assoc]

theorem State.shift_shift (δ ε : Word) (s : State) : (s.shift δ).shift ε = s.shift (δ + ε) := by
  have hcall : Call.shift ε ∘ Call.shift δ = Call.shift (δ + ε) := by
    funext c
    simp only [Function.comp_apply, Call.shift, BitVec.add_assoc]
  have hreq : Request.shift ε ∘ Request.shift δ = Request.shift (δ + ε) := by
    funext q
    simp only [Function.comp_apply, Request.shift, BitVec.add_assoc]
  simp only [State.shift, Shared.shift_shift, List.map_map, hcall, hreq]

theorem State.shift_zero (s : State) : s.shift 0#32 = s := by
  have hcall : Call.shift 0#32 = id := by
    funext c
    simp [Call.shift]
  have hreq : Request.shift 0#32 = id := by
    funext q
    simp [Request.shift]
  simp [State.shift, Shared.shift, hcall, hreq]

theorem State.shift_shift_neg (δ : Word) (s : State) : (s.shift δ).shift (-δ) = s := by
  rw [State.shift_shift, BitVec.add_right_neg, State.shift_zero]

/-! ## What the steps see of the counters -/

/-- Whole rounds do not show behind the mask. -/
theorem Ring.idx_add (hδ : r.idx δ = 0) (t : Word) : r.idx (t + δ) = r.idx t := by
  have hdvd : r.entries ∣ 2 ^ 32 := Nat.pow_dvd_pow 2 (r.order_le.trans (by omega))
  have hzero : δ.toNat % r.entries = 0 := by rw [← r.toNat_idx, hδ]; rfl
  rw [r.idx_eq_iff, BitVec.toNat_add, Nat.mod_mod_of_dvd _ hdvd, Nat.add_mod, hzero, Nat.add_zero,
    Nat.mod_mod]

theorem Ring.buff_add (hδ : r.idx δ = 0) (t : Word) : r.buff (t + δ) = r.buff t := by
  rw [Ring.buff, Ring.buff, r.idx_add hδ]

theorem Ring.sqe_add (hδ : r.idx δ = 0) (t : Word) (m : Message) :
    r.sqe (t + δ) m = r.sqe t m := by
  rw [Ring.sqe, Ring.sqe, r.buff_add hδ, r.idx_add hδ]

/-- A common shift does not show in a difference. -/
theorem sub_shift (x y δ : Word) : (x + δ) - (y + δ) = x - y := by
  bv_omega

theorem add_one_shift (x δ : Word) : x + δ + 1 = x + 1 + δ := by
  rw [BitVec.add_assoc, BitVec.add_comm δ, ← BitVec.add_assoc]

theorem hasRoom_shift {sh : Shared} {c : Call} (δ : Word) :
    hasRoom r (sh.shift δ) (c.shift δ) ↔ hasRoom r sh c := by
  show (c.tail + δ) - (sh.sringHead + δ) < _ ↔ _
  rw [sub_shift]
  exact Iff.rfl

theorem Shared.head_eq_tail_shift (sh : Shared) (δ : Word) :
    (sh.shift δ).sringHead = (sh.shift δ).sringTail ↔ sh.sringHead = sh.sringTail :=
  BitVec.add_left_inj δ

theorem Shared.clearFlags_shift (sh : Shared) (δ : Word) :
    (sh.shift δ).clearFlags = sh.clearFlags.shift δ := by
  rw [Shared.clearFlags, Shared.clearFlags]
  by_cases hflag : sh.sringFlags &&& ioringSqNeedWakeup ≠ 0
  · rw [if_pos hflag, if_pos (show (sh.shift δ).sringFlags &&& ioringSqNeedWakeup ≠ 0 from hflag)]
    rfl
  · rw [if_neg hflag, if_neg (show ¬ (sh.shift δ).sringFlags &&& ioringSqNeedWakeup ≠ 0 from hflag)]

/-! ## The steps -/

/-- The step of a call with a later ticket of the same slot. -/
theorem Call.step_shift (hδ : r.idx δ = 0) (sh : Shared) (c : Call) :
    (c.shift δ).step v r (sh.shift δ) =
      (c.step v r sh).map fun p => (p.1.shift δ, p.2.shift δ) := by
  have hidx : r.idx (c.shift δ).tail = r.idx c.tail := r.idx_add hδ c.tail
  have hbuff : r.buff (c.shift δ).tail = r.buff c.tail := r.buff_add hδ c.tail
  have hsqe : r.sqe (c.shift δ).tail c.msg = r.sqe c.tail c.msg := r.sqe_add hδ c.tail c.msg
  rw [Call.step, Call.step, Call.shift_phase]
  cases hphase : c.phase with
  | waitRoom =>
    -- the loop looks at a difference
    by_cases hroom : hasRoom r sh c
    · simp only [hasRoom_shift, hroom, if_true, Option.map_some]
      rfl
    · simp only [hasRoom_shift, hroom, if_false, Option.map_some]
  | memsetBuff =>
    simp only [Shared.memsetBuff, hbuff, Option.map_some]
    rfl
  | memcpyBuff =>
    simp only [Shared.memcpyBuff, hbuff, Option.map_some]
    rfl
  | memsetSqe =>
    simp only [Shared.storeSqe, hidx, Option.map_some]
    rfl
  | fillSqe =>
    show some (Shared.storeSqe r _ (r.sqe _ c.msg) _, _) = _
    simp only [Shared.storeSqe, hidx, hsqe, Option.map_some]
    rfl
  | storeArray =>
    simp only [Shared.storeArray, hidx, Option.map_some]
    rfl
  | storeTail =>
    -- the value stored moves with the ticket
    have hnext : (c.shift δ).tail + 1 = c.tail + 1 + δ := add_one_shift c.tail δ
    simp only [Shared.storeTail, hnext, Option.map_some]
    rfl
  | clearFlags =>
    simp only [Shared.clearFlags_shift, Option.map_some]
    rfl
  | returned => rfl

theorem State.nextRequest_shift (hδ : r.idx δ = 0) (s : State) :
    (s.shift δ).nextRequest r = (s.nextRequest r).shift δ := by
  have hidx : r.idx (s.shift δ).shared.sringHead = r.idx s.shared.sringHead :=
    r.idx_add hδ s.shared.sringHead
  rw [State.nextRequest, hidx]
  rfl

theorem State.take_shift (hδ : r.idx δ = 0) (s : State) :
    (s.shift δ).take r = (s.take r).map (State.shift δ) := by
  have hempty := s.shared.head_eq_tail_shift δ
  by_cases hp : s.poller = .polling ∧ s.shared.sringHead ≠ s.shared.sringTail
  · have hp' : (s.shift δ).poller = .polling ∧
        (s.shift δ).shared.sringHead ≠ (s.shift δ).shared.sringTail :=
      ⟨hp.1, fun heq => hp.2 (hempty.mp heq)⟩
    rw [State.take, if_pos hp', State.take, if_pos hp, Option.map_some, nextRequest_shift hδ]
    have hnext : s.shared.sringHead + δ + 1 = s.shared.sringHead + 1 + δ :=
      add_one_shift s.shared.sringHead δ
    simp only [State.shift, Shared.shift, hnext, List.map_append, List.map_singleton]
  · have hp' : ¬ ((s.shift δ).poller = .polling ∧
        (s.shift δ).shared.sringHead ≠ (s.shift δ).shared.sringTail) :=
      fun h => hp ⟨h.1, fun heq => h.2 (hempty.mpr heq)⟩
    rw [State.take, if_neg hp', State.take, if_neg hp, Option.map_none]

theorem State.write_shift (s : State) (j : ℕ) :
    (s.shift δ).write j = (s.write j).map (State.shift δ) := by
  rw [State.write, State.write]
  show ((s.reqs.map (Request.shift δ))[j]?).bind _ = _
  rw [List.getElem?_map]
  cases s.reqs[j]? with
  | none => rfl
  | some q =>
    simp only [Option.map_some, Option.bind_some]
    by_cases htext : q.text = none
    · rw [if_pos htext, if_pos (show (q.shift δ).text = none from htext), Option.map_some]
      simp only [State.shift, List.map_set]
      rfl
    · rw [if_neg htext, if_neg (show ¬ (q.shift δ).text = none from htext), Option.map_none]

theorem State.complete_shift (s : State) (j : ℕ) :
    (s.shift δ).complete j = (s.complete j).map (State.shift δ) := by
  rw [State.complete, State.complete]
  show ((s.reqs.map (Request.shift δ))[j]?).bind _ = _
  rw [List.getElem?_map]
  cases s.reqs[j]? with
  | none => rfl
  | some q =>
    simp only [Option.map_some, Option.bind_some]
    show q.text.bind _ = _
    cases htext : q.text with
    | none => rfl
    | some text =>
      simp only [Option.bind_some]
      by_cases hc : q.completed = false
      · rw [if_pos hc, if_pos (show (q.shift δ).completed = false from hc), Option.map_some]
        simp only [State.shift, List.map_set, Request.shift, htext]
      · rw [if_neg hc, if_neg (show ¬ (q.shift δ).completed = false from hc), Option.map_none]

theorem State.pollerStep_shift (s : State) (a : PollerStep) :
    (s.shift δ).pollerStep a = (s.pollerStep a).map (State.shift δ) := by
  cases a
  case enterWakeup => rfl
  case sleep =>
    by_cases hp : s.poller = .rechecked
    · simp only [State.pollerStep, State.shift_poller, hp, if_true, Option.map_some]
      rfl
    · simp only [State.pollerStep, State.shift_poller, hp, if_false, Option.map_none]
  -- the other steps ask whether the ring is empty, or nothing of the counters
  all_goals
    simp only [State.pollerStep, State.shift_poller, State.shift_shared,
      Shared.head_eq_tail_shift]
    split_ifs <;> rfl

/-- The steps of the system do not notice by how many rounds the counters have moved. -/
theorem step_shift (hδ : r.idx δ = 0) (s : State) (a : Label) :
    (system v r).step (s.shift δ) a = ((system v r).step s a).map (State.shift δ) := by
  cases a with
  | claim msg =>
    show some _ = some _
    have hnext : s.shared.sqTailCache + δ + 1 = s.shared.sqTailCache + 1 + δ :=
      add_one_shift s.shared.sqTailCache δ
    simp only [claim, State.shift, Shared.shift, Call.shift, hnext, List.map_append,
      List.map_singleton]
  | call i =>
    show (s.calls.map (Call.shift δ))[i]?.bind _ = (s.calls[i]?.bind _).map _
    rw [List.getElem?_map]
    cases s.calls[i]? with
    | none => rfl
    | some c =>
      show ((c.shift δ).step v r (s.shared.shift δ)).map _ = _
      rw [Call.step_shift hδ]
      simp only [Option.bind_some]
      cases c.step v r s.shared with
      | none => rfl
      | some p => simp [State.shift, List.map_set]
  | take => exact s.take_shift hδ
  | write j => exact s.write_shift j
  | complete j => exact s.complete_shift j
  | poller a => exact s.pollerStep_shift a

/-! ## The runs -/

theorem Initial.shift (h : Initial s) (δ : Word) : Initial (s.shift δ) where
  calls := by rw [State.shift, h.calls, List.map_nil]
  reqs := by rw [State.shift, h.reqs, List.map_nil]
  posted := h.posted
  reaped := h.reaped
  cache := congrArg (· + δ) h.cache
  head := congrArg (· + δ) h.head
  poller := h.poller

/-- Publishing in ticket order is a matter of the order of the calls alone. -/
theorem inOrder_shift (δ : Word) (s : State) (a : Label) : InOrder (s.shift δ) a ↔ InOrder s a := by
  have hcalls : (s.shift δ).calls = s.calls.map (Call.shift δ) := rfl
  refine and_congr ?_ ?_
  · cases a with
    | claim msg =>
      show (s.shift δ).calls.length < (s.shift δ).reqs.length + _ ↔ _
      simp only [State.shift, List.length_map]
      exact Iff.rfl
    | _ => exact Iff.rfl
  · cases a with
    | call i =>
      have hphase : (s.shift δ).publishes i ↔ s.publishes i := by
        rw [State.publishes, State.publishes, hcalls, List.getElem?_map, Option.map_map]
        exact Iff.rfl
      refine imp_congr hphase ?_
      rw [hcalls, ← List.map_take, List.forall_mem_map]
      exact Iff.rfl
    | _ => exact Iff.rfl

/-- Some number of whole rounds leads back from a counter into the first round. -/
theorem exists_round_back (r : Ring) (t : Word) :
    ∃ δ, r.idx δ = 0 ∧ (t + δ).toNat < r.entries := by
  have hdvd : r.entries ∣ 2 ^ 32 := Nat.pow_dvd_pow 2 (r.order_le.trans (by omega))
  refine ⟨r.idx t - t, ?_, ?_⟩
  · apply BitVec.eq_of_toNat_eq
    rw [r.toNat_idx, BitVec.toNat_sub, Nat.mod_mod_of_dvd _ hdvd, r.toNat_idx]
    -- a difference of multiples of the ring size
    have hround : 2 ^ 32 - t.toNat + t.toNat % r.entries =
        2 ^ 32 - r.entries * (t.toNat / r.entries) := by
      have hlt := t.isLt
      have hdiv := Nat.div_add_mod t.toNat r.entries
      omega
    rw [hround]
    exact Nat.mod_eq_zero_of_dvd (Nat.dvd_sub hdvd (Nat.dvd_mul_right _ _))
  · rw [BitVec.add_comm, BitVec.sub_add_cancel]
    exact r.idx_lt t

/-- The runs from any start are the runs from counters within the first round of the ring, with all
counters moved by one and the same number of whole rounds. -/
theorem runs_shift_iff {P : State → Label → Prop}
    (hP : ∀ (δ : Word) (s : State) (a : Label), r.idx δ = 0 → (P (s.shift δ) a ↔ P s a))
    (v : Variant) (s₀ : State) :
    ∃ δ : Word, r.idx δ = 0 ∧ (s₀.shift δ).shared.sringTail.toNat < r.entries ∧
      ∀ (as : List Label) (s : State),
        (system v r).Runs P s₀ as s ↔ (system v r).Runs P (s₀.shift δ) as (s.shift δ) := by
  obtain ⟨δ, hδ, hlt⟩ := exists_round_back r s₀.shared.sringTail
  refine ⟨δ, hδ, hlt, fun as s => ⟨fun h => ?_, fun h => ?_⟩⟩
  · exact h.map (fun hinit => hinit.shift δ) (fun s a => (hP δ s a hδ).mpr) (step_shift hδ)
  · have hneg : r.idx (-δ) = 0 := by
      rw [← r.idx_add hδ, BitVec.add_left_neg, Ring.idx, BitVec.zero_and]
      rfl
    have hback := h.map (f := State.shift (-δ)) (fun hinit => hinit.shift (-δ))
      (fun s a => (hP (-δ) s a hneg).mpr) (step_shift hneg)
    rwa [State.shift_shift_neg, State.shift_shift_neg] at hback

/-- Two overlapping calls whose tickets are the last one before the wrap and the first one after
it. -/
theorem runs_shift_alternating :
    ∃ (δ : Word) (s₀ s : State), s₀ = (State.afterSetup.shift 0xFFFFFFFF).shift δ ∧
      s₀.shared.sringTail.toNat < demoRing.entries ∧
      (system .gpuSvmDemo demoRing).Runs InOrder s₀ alternating s := by
  obtain ⟨δ, -, hlt, hruns⟩ := runs_shift_iff (r := demoRing) (P := InOrder)
    (fun δ s a _ => inOrder_shift δ s a) .gpuSvmDemo (State.afterSetup.shift 0xFFFFFFFF)
  have hrun : (system .gpuSvmDemo demoRing).Runs InOrder (State.afterSetup.shift 0xFFFFFFFF)
      alternating _ :=
    .of_runUnder (State.initial_afterSetup.shift _) (by decide +kernel)
  exact ⟨δ, _, _, rfl, hlt, (hruns _ _).mp hrun⟩

end GpuLibc
