import GpuLibc.Uring.DevicePath
import GpuLibc.Uring.Lifecycle
import GpuLibc.Uring.Serial
import GpuLibc.Uring.WaitLoop

/-!
# No more calls than entries

As long as a context sees no more calls than its ring has entries, no slot is used twice, so
nothing is lost for want of the wait loop or by writing too early to a slot that the kernel still
reads. Then all copies of the routine do what `gpu_svm_demo` does when it reuses its slots in
time, as far as the calls publish in ticket order.
-/

namespace GpuLibc

open Counter

variable {v : Variant} {r : Ring} {base : Word} {s₀ s s' t : State} {as : List Label} {n p : ℕ}

/-- No call is made beyond the first `n`. -/
def atMostCalls (n : ℕ) (s : State) : Label → Prop
  | .claim _ => s.calls.length < n
  | _ => True

instance (n : ℕ) (s : State) : ∀ a, Decidable (atMostCalls n s a)
  | .claim _ => inferInstanceAs (Decidable (_ < _))
  | .call _ | .take | .write _ | .complete _ | .poller _ => inferInstanceAs (Decidable True)

/-- Tickets are published in order, and there are no more of them than the ring has entries. -/
def FewInOrder (r : Ring) (s : State) (a : Label) : Prop :=
  publishesInOrder s a ∧ atMostCalls r.entries s a

instance (r : Ring) (s : State) (a : Label) : Decidable (FewInOrder r s a) :=
  inferInstanceAs (Decidable (_ ∧ _))

/-! ## The number of calls -/

/-- Only a claim changes the number of calls. -/
theorem step_length_calls {a : Label} (hs : (system v r).step s a = some s') :
    (∃ msg, a = .claim msg ∧ s'.calls.length = s.calls.length + 1) ∨
      (∀ msg, a ≠ .claim msg) ∧ s'.calls.length = s.calls.length := by
  cases a with
  | claim msg =>
    obtain rfl := step_claim hs
    exact .inl ⟨msg, rfl, List.length_append⟩
  | call i =>
    obtain ⟨c, sh', c', -, -, rfl⟩ := step_call hs
    exact .inr ⟨by simp, List.length_set⟩
  | take => obtain ⟨-, -, rfl⟩ := step_take hs; exact .inr ⟨by simp, rfl⟩
  | write j => obtain ⟨q, -, -, rfl⟩ := step_write hs; exact .inr ⟨by simp, rfl⟩
  | complete j => obtain ⟨q, _, -, -, -, rfl⟩ := step_complete hs; exact .inr ⟨by simp, rfl⟩
  | poller a => rw [step_poller hs]; exact .inr ⟨by simp, rfl⟩

theorem length_calls_le {a : Label} (hg : atMostCalls n s a)
    (hs : (system v r).step s a = some s') (h : s.calls.length ≤ n) : s'.calls.length ≤ n := by
  rcases step_length_calls hs with ⟨msg, rfl, hlen⟩ | ⟨-, hlen⟩
  · have hlt : s.calls.length < n := hg
    omega
  · omega

/-- A run that ends with `n` calls at most never had more. -/
theorem runs_atMostCalls {P : State → Label → Prop} (h : (system v r).Runs P s₀ as s)
    (hle : s.calls.length ≤ n) :
    (system v r).Runs (fun s a => P s a ∧ atMostCalls n s a) s₀ as s := by
  induction h with
  | start hi => exact .start hi
  | @step as s s' a hr hp hs ih =>
    rcases step_length_calls hs with ⟨msg, rfl, hlen⟩ | ⟨hne, hlen⟩
    · have hlt : s.calls.length < n := by omega
      exact (ih hlt.le).step ⟨hp, hlt⟩ hs
    · refine (ih (hlen ▸ hle)).step ⟨hp, ?_⟩ hs
      cases a with
      | claim msg => exact absurd rfl (hne msg)
      | _ => trivial

/-! ## Room and release come for free -/

theorem roomInOrder_of_few {a : Label} (hlen : s.calls.length ≤ r.entries)
    (hg : FewInOrder r s a) : RoomInOrder r s a := by
  have hentries := r.entries_le
  refine ⟨⟨?_, hg.1⟩, ?_⟩
  · cases a with
    | claim msg =>
      have hlt : s.calls.length < r.entries := hg.2
      show s.calls.length < s.reqs.length + 2 ^ 32
      omega
    | _ => trivial
  · cases a with
    | call i =>
      intro hclears
      obtain ⟨c, hc, -⟩ := Option.map_eq_some_iff.mp hclears
      have hlt := (List.getElem?_eq_some_iff.mp hc).1
      omega
    | _ => trivial

/-- The first calls hold different slots, so no call meets the request of another one in its
own. -/
theorem slotReleased_of_few (hinv : InOrder.Inv r base s p) (hlen : s.calls.length ≤ r.entries)
    (a : Label) : slotReleased r s a := by
  cases a with
  | call i =>
    intro c hc q hq hcookie
    obtain ⟨j, hj⟩ := List.mem_iff_getElem?.mp hq
    obtain ⟨d, hd, hentry, hlt⟩ := hinv.exists_call hj
    have hunpublished : c.published = true := by
      -- an unpublished call comes after those the kernel has taken
      by_contra hpub
      have hle := hinv.le_of_not_published hc (by simpa using hpub)
      have hi := InOrder.Inv.lt_length hc
      have hne : r.idx (after base i) ≠ r.idx (after base j) :=
        r.idx_after_ne (h := 0) (Nat.zero_le i) (by omega) (Nat.zero_le j) (by omega) (by omega)
      rw [← hinv.ticket i c hc, ← hinv.ticket j d hd] at hne
      rw [Request.userData_eq hentry] at hcookie
      exact hne (BitVec.eq_of_toNat_eq hcookie).symm
    exact ⟨fun hphase => by simp [Call.published, hphase] at hunpublished,
      fun hphase => by simp [Call.published, hphase] at hunpublished⟩
  | _ => trivial

/-- A run of any copy with few calls is matched by `gpu_svm_demo`, with every slot released. -/
theorem exists_released_run (h : (system v r).Runs (FewInOrder r) s₀ as s) :
    ∃ bs t, (system .gpuSvmDemo r).Runs (Released r) s₀ bs t ∧ Mirrors s t := by
  have hfew : s.calls.length ≤ r.entries :=
    h.invariant (I := fun s => s.calls.length ≤ r.entries) (fun hinit => by simp [hinit.calls])
      fun _ _ _ hlen hg hs => length_calls_le hg.2 hs hlen
  have hroom : (system v r).Runs (RoomInOrder r) s₀ as s :=
    h.imp (I := fun s => s.calls.length ≤ r.entries) (fun hinit => by simp [hinit.calls])
      (fun _ _ _ hlen hg hs => length_calls_le hg.2 hs hlen) fun _ _ => roomInOrder_of_few
  obtain ⟨bs, t, hrun, hmir⟩ := exists_demo_run hroom
  have hrun' := runs_atMostCalls hrun (hmir.length_eq.trans_le hfew)
  refine ⟨bs, t, ?_, hmir⟩
  refine hrun'.imp
    (I := fun t => t.calls.length ≤ r.entries ∧ ∃ p, InOrder.Inv r s₀.shared.sringTail t p)
    (fun hinit => ⟨by simp [hinit.calls], 0, .of_init hinit⟩) ?_ ?_
  · rintro t a t' ⟨hlen, p, hinv⟩ hg hs
    exact ⟨length_calls_le hg.2 hs hlen, hinv.step hg.1.1 hs⟩
  · rintro t a ⟨hlen, p, hinv⟩ hg
    exact ⟨hg.1.1, slotReleased_of_few hinv hlen a⟩

/-! ## What a state takes over from the state it mirrors -/

namespace Mirrors

theorem exactlyOnce (h : Mirrors s t) (hinv : InOrder.Inv r base t p) : ExactlyOnce r s := by
  have hlog := hinv.log
  rw [h.map_eq (Call.entry r) fun _ _ => Call.entry_eq r, h.reqs] at hlog
  have htaken := hinv.taken_le
  have hle := htaken.trans hinv.le_claimed
  rw [h.reqs, h.length_eq] at hle
  refine ⟨hlog, hle, fun c hc => ?_⟩
  obtain ⟨i, hlt, hi⟩ := getElem?_of_mem_take hc
  obtain ⟨d, hd, heq⟩ := h.exists_call hi
  rw [← Call.published_eq heq]
  rw [h.reqs] at htaken
  exact (hinv.published i d hd).mpr (by omega)

theorem outstanding (h : Mirrors s t) {i : ℕ} {c d : Call} (heq : d.settled = c.settled)
    (hout : s.Outstanding i c) : t.Outstanding i d := by
  refine ⟨(Call.published_eq heq).trans hout.1, fun q hq => hout.2 q ?_⟩
  rwa [← h.reqs]

theorem messagesIntact (h : Mirrors s t) (hinv : InOrder.Inv r base t p)
    (hrel : Released.Inv r t) : MessagesIntact r s where
  entries j q hq := by
    obtain ⟨d, hd, hentry, -⟩ := hinv.exists_call (h.reqs ▸ hq)
    obtain ⟨c, hc, heq⟩ := h.symm.exists_call hd
    exact ⟨c, hc, hentry.trans (Call.entry_eq r heq.symm)⟩
  texts j q c text hq hc htext := by
    obtain ⟨d, hd, heq⟩ := h.exists_call hc
    rw [← Call.msg_eq heq]
    exact hrel.text j q d text (h.reqs ▸ hq) hd htext
  slots i j c d hc hd hij hcout hdout := by
    obtain ⟨c', hc', hceq⟩ := h.exists_call hc
    obtain ⟨d', hd', hdeq⟩ := h.exists_call hd
    have hne := hrel.slots i j c' d' hc' hd' hij (h.outstanding hceq hcout)
      (h.outstanding hdeq hdout)
    rw [Call.tail_eq hceq, Call.tail_eq hdeq] at hne
    exact ⟨hne, r.buff_apart hne⟩

theorem all_published (h : Mirrors s t) (hall : ∀ c ∈ s.calls, c.published = true) :
    ∀ d ∈ t.calls, d.published = true := by
  intro d hd
  obtain ⟨i, hi⟩ := List.mem_iff_getElem?.mp hd
  obtain ⟨c, hc, heq⟩ := h.symm.exists_call hi
  rw [← Call.published_eq heq]
  exact hall c (List.mem_of_getElem? hc)

/-- Published calls leave the memory of consecutive calls. -/
theorem shared_eq (h : Mirrors s t) (hinit : Initial s₀)
    (hinv : InOrder.Inv r s₀.shared.sringTail t p) (hser : Serial.Inv r s₀.shared t)
    (hall : ∀ c ∈ s.calls, c.published = true) :
    s.shared = { s₀.shared.perrors r (s.calls.map Call.msg) with
      sringHead := s.shared.sringHead, sringFlags := s.shared.sringFlags } := by
  have hshared := Serial.shared_eq hinv hinit hser (h.all_published hall)
  rw [h.map_eq Call.msg fun _ _ => Call.msg_eq] at hshared
  obtain ⟨flags, hmir⟩ := h.shared
  rw [hmir] at hshared
  -- the two memories differ in the flag word only
  exact congrArg (fun sh : Shared => { sh with sringFlags := s.shared.sringFlags }) hshared

end Mirrors

/-- Once all calls have published and the kernel finds the ring empty, it has taken every entry. -/
theorem taken_of_few (h : (system v r).Runs (FewInOrder r) s₀ as s)
    (hall : ∀ c ∈ s.calls, c.published = true)
    (hempty : s.shared.sringHead = s.shared.sringTail) : s.reqs.length = s.calls.length := by
  obtain ⟨bs, t, hrun, hmir⟩ := exists_released_run h
  obtain ⟨-, p, hinv⟩ := Released.inv_of_runs hrun
  obtain ⟨flags, hshared⟩ := hmir.shared
  have heq := hinv.head_eq_tail_iff.mp (by rw [hshared]; exact hempty)
  rw [← hmir.reqs, heq, hinv.eq_of_published (hmir.all_published hall), hmir.length_eq]

theorem intact_of_few (h : (system v r).Runs (FewInOrder r) s₀ as s) :
    ExactlyOnce r s ∧ MessagesIntact r s := by
  obtain ⟨bs, t, hrun, hmir⟩ := exists_released_run h
  obtain ⟨hrel, p, hinv⟩ := Released.inv_of_runs hrun
  exact ⟨hmir.exactlyOnce hinv, hmir.messagesIntact hinv hrel⟩

/-- Two calls of the routine without the wait loop that overlap step by step, and the kernel at
work. -/
def alternatingNoWait : List Label :=
  [.claim helloA, .claim helloB] ++ (List.replicate 6 [.call 0, .call 1]).flatten ++
    [.take, .take, .write 1, .write 0, .complete 1]

end GpuLibc
