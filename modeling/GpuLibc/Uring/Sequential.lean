import GpuLibc.Uring.InOrder

/-!
# Calls that do not overlap

In the demo's `main` one call returns before the next one starts. Such runs publish in ticket
order, so everything proved of those applies to them.
-/

namespace GpuLibc

variable {r : Ring} {s₀ s s' : State} {as : List Label} {base : Word} {p : ℕ}

/-- A call starts only when no other call is in progress. -/
def sequential (s : State) : Label → Prop
  | .claim _ => s.Quiescent
  | _ => True

instance (s : State) : ∀ a, Decidable (sequential s a)
  | .claim _ => inferInstanceAs (Decidable s.Quiescent)
  | .call _ | .take | .write _ | .complete _ | .poller _ => inferInstanceAs (Decidable True)

/-- Every call but the last one has returned. -/
def OthersReturned (s : State) : Prop :=
  ∀ i c, s.calls[i]? = some c → i + 1 < s.calls.length → c.phase = .returned

/-- With no call in progress all calls have published. -/
theorem InOrder.Inv.eq_of_quiescent (h : InOrder.Inv r base s p) (hquiet : s.Quiescent) :
    p = s.calls.length := by
  refine le_antisymm h.le_claimed ?_
  by_contra hlt
  obtain ⟨c, hc, hpub⟩ := h.exists_unpublished (not_le.mp hlt)
  simp [hquiet.published (List.mem_of_getElem? hc)] at hpub

theorem OthersReturned.step {v : Variant} {a : Label} (h : OthersReturned s)
    (hg : sequential s a) (hs : (system v r).step s a = some s') : OthersReturned s' := by
  cases a with
  | claim msg =>
    obtain rfl := step_claim hs
    intro i c hc hlt
    rcases getElem?_concat_cases hc with ⟨rfl, -⟩ | ⟨-, hc⟩
    · simp only [List.length_append, List.length_singleton] at hlt
      omega
    · exact hg c (List.mem_of_getElem? hc)
  | call i =>
    obtain ⟨c, sh', c', hc, hstep, rfl⟩ := step_call hs
    intro j d hd hlt
    rw [List.length_set] at hlt
    rcases getElem?_set_cases hd with ⟨rfl, rfl⟩ | ⟨-, hd⟩
    · -- only the last call has a step to make
      simp [Call.step, h j c hc hlt] at hstep
    · exact h j d hd hlt
  | take => obtain ⟨-, -, rfl⟩ := step_take hs; exact h
  | write j => obtain ⟨q, -, -, rfl⟩ := step_write hs; exact h
  | complete j => obtain ⟨q, t, -, -, -, rfl⟩ := step_complete hs; exact h
  | poller a => rw [step_poller hs]; exact h

/-- A step of non-overlapping calls publishes in ticket order. -/
theorem inOrder_of_sequential {a : Label} (h : OthersReturned s) (hinv : InOrder.Inv r base s p)
    (hg : sequential s a) : InOrder s a := by
  refine ⟨?_, ?_⟩
  · cases a with
    | claim msg =>
      -- all calls have published, so the outstanding ones fit into the ring
      have hlen := hinv.eq_of_quiescent hg
      have hle := hinv.published_le
      have hentries := r.entries_le
      change s.calls.length < s.reqs.length + 2 ^ 32
      omega
    | _ => trivial
  · cases a with
    | call i =>
      intro hpub c hc
      obtain ⟨d, hd, -⟩ := Option.map_eq_some_iff.mp hpub
      have hlen := InOrder.Inv.lt_length hd
      -- an earlier call is not the last one, so it has returned
      obtain ⟨j, hlt, hj⟩ := getElem?_of_mem_take hc
      exact Call.published_of_returned (h j c hj (by omega))
    | _ => trivial

/-- What holds along a run of calls that do not overlap. -/
def SequentialInv (r : Ring) (base : Word) (s : State) : Prop :=
  OthersReturned s ∧ ∃ p, InOrder.Inv r base s p

theorem SequentialInv.of_init (h : Initial s) : SequentialInv r s.shared.sringTail s :=
  ⟨by simp [OthersReturned, h.calls], 0, InOrder.Inv.of_init h⟩

theorem SequentialInv.step {a : Label} (h : SequentialInv r base s) (hg : sequential s a)
    (hs : (system .gpuSvmDemo r).step s a = some s') : SequentialInv r base s' := by
  obtain ⟨hothers, p, hinv⟩ := h
  exact ⟨hothers.step hg hs, hinv.step (inOrder_of_sequential hothers hinv hg) hs⟩

theorem sequential_inv (h : (system .gpuSvmDemo r).Runs sequential s₀ as s) :
    SequentialInv r s₀.shared.sringTail s :=
  h.invariant .of_init fun _ _ _ hinv hg hs => hinv.step hg hs

/-- A run of non-overlapping calls is a run that publishes in ticket order. -/
theorem runs_inOrder_of_sequential (h : (system .gpuSvmDemo r).Runs sequential s₀ as s) :
    (system .gpuSvmDemo r).Runs InOrder s₀ as s := by
  refine h.imp (I := SequentialInv r s₀.shared.sringTail) .of_init
    (fun _ _ _ hinv hg hs => hinv.step hg hs) ?_
  rintro s a ⟨hothers, p, hinv⟩ hg
  exact inOrder_of_sequential hothers hinv hg

/-- In sequential runs a call that has not published is the one that publishes next. -/
theorem eq_of_not_published (hothers : OthersReturned s) (hinv : InOrder.Inv r base s p) {i : ℕ}
    {c : Call} (hc : s.calls[i]? = some c) (hpub : c.published = false) : i = p := by
  have hlt := InOrder.Inv.lt_length hc
  have hge : p ≤ i := hinv.le_of_not_published hc hpub
  by_contra hne
  -- the call with index `p` would be an earlier one, which has returned
  obtain ⟨d, hd, hpub⟩ := hinv.exists_unpublished (by omega : p < s.calls.length)
  simp [Call.published_of_returned (hothers p d hd (by omega))] at hpub

/-- In sequential runs a call in the wait loop is the one that publishes next. -/
theorem eq_of_waitRoom (hothers : OthersReturned s) (hinv : InOrder.Inv r base s p) {i : ℕ}
    {c : Call} (hc : s.calls[i]? = some c) (hphase : c.phase = .waitRoom) : i = p :=
  eq_of_not_published hothers hinv hc (by simp [Call.published, hphase])

end GpuLibc
