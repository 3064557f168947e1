import GpuLibc.Uring.Slots

/-!
# What a run can touch

In any order of the steps, racing ones included, the calls write nothing but the slots of the ring:
its windows, its entries and its places in the indirection array. And whatever the kernel takes is
a blank entry or one that a single call has prepared, so it reads the windows and nothing else. The
stores that fill the fields of an entry are one step of the model here; an entry taken between two
of them is not covered.

* `Call.step_sameOutside`: the frame of one step.
* `Confined`: what is found in the entries, the requests and the completions of any run.
* `confined_of_runs`: it holds in every state of every run.
-/

namespace GpuLibc

open ByteMemory

variable {v : Variant} {r : Ring} {s₀ s s' : State} {sh sh' : Shared} {c c' : Call}

/-- The address lies in none of the windows. -/
def Ring.OutsideWindows (r : Ring) (a : ℕ) : Prop :=
  a < r.msgPool ∨ r.msgPool + r.entries * msgBufSize ≤ a

/-- The two memories agree outside the slots of the ring. -/
structure SameOutside (r : Ring) (sh sh' : Shared) : Prop where
  mem : ∀ a, r.OutsideWindows a → sh'.mem a = sh.mem a
  sqes : ∀ k, r.entries ≤ k → sh'.sqes k = sh.sqes k
  array : ∀ k, r.entries ≤ k → sh'.sringArray k = sh.sringArray k

theorem SameOutside.trans {sh'' : Shared} (h : SameOutside r sh sh')
    (h' : SameOutside r sh' sh'') : SameOutside r sh sh'' where
  mem a ha := (h'.mem a ha).trans (h.mem a ha)
  sqes k hk := (h'.sqes k hk).trans (h.sqes k hk)
  array k hk := (h'.array k hk).trans (h.array k hk)

/-- An address outside the windows is outside each of them. -/
theorem Ring.OutsideWindows.not_mem {a : ℕ} (h : r.OutsideWindows a) (t : Word) {n : ℕ}
    (hn : n ≤ msgBufSize) : a < r.buff t ∨ r.buff t + n ≤ a := by
  have hlt := r.idx_lt t
  have hend : (r.idx t).toNat * msgBufSize + msgBufSize ≤ r.entries * msgBufSize := by
    rw [← Nat.succ_mul]
    exact Nat.mul_le_mul_right _ hlt
  rw [r.buff_eq]
  unfold OutsideWindows at h
  omega

/-- A step of a call writes nothing outside the slots. -/
theorem Call.step_sameOutside (h : c.step v r sh = some (sh', c')) : SameOutside r sh sh' := by
  have hne : ∀ k, r.entries ≤ k → k ≠ (r.idx c.tail).toNat := by
    intro k hk
    have hlt := r.idx_lt c.tail
    omega
  cases hphase : c.phase <;> simp only [Call.step, hphase, Option.some.injEq, Prod.mk.injEq] at h
  case returned => contradiction
  case memsetBuff =>
    obtain ⟨rfl, -⟩ := h
    exact ⟨fun a ha => fill_apply_of_not_mem (ha.not_mem c.tail le_rfl), fun _ _ => rfl,
      fun _ _ => rfl⟩
  case memcpyBuff =>
    obtain ⟨rfl, -⟩ := h
    exact ⟨fun a ha => copy_apply_of_not_mem (ha.not_mem c.tail c.msg.short.le), fun _ _ => rfl,
      fun _ _ => rfl⟩
  case memsetSqe | fillSqe =>
    obtain ⟨rfl, -⟩ := h
    exact ⟨fun _ _ => rfl, fun k hk => Function.update_of_ne (hne k hk) _ _, fun _ _ => rfl⟩
  case storeArray =>
    obtain ⟨rfl, -⟩ := h
    exact ⟨fun _ _ => rfl, fun _ _ => rfl, fun k hk => Function.update_of_ne (hne k hk) _ _⟩
  case clearFlags =>
    obtain ⟨rfl, -⟩ := h
    rw [Shared.clearFlags]
    split <;> exact ⟨fun _ _ => rfl, fun _ _ => rfl, fun _ _ => rfl⟩
  all_goals obtain ⟨rfl, -⟩ := h; exact ⟨fun _ _ => rfl, fun _ _ => rfl, fun _ _ => rfl⟩

/-- A step of a call leaves each entry alone, clears it, or makes it the call's own. -/
theorem Call.step_sqes (h : c.step v r sh = some (sh', c')) (k : ℕ) :
    sh'.sqes k = sh.sqes k ∨ sh'.sqes k = .zero ∨ sh'.sqes k = r.sqe c.tail c.msg := by
  cases hphase : c.phase <;> simp only [Call.step, hphase, Option.some.injEq, Prod.mk.injEq] at h
  case returned => contradiction
  case memsetSqe | fillSqe =>
    obtain ⟨rfl, -⟩ := h
    by_cases hk : k = (r.idx c.tail).toNat
    · subst hk
      exact .inr (by simp [Shared.storeSqe])
    · exact .inl (Function.update_of_ne hk _ _)
  case clearFlags =>
    obtain ⟨rfl, -⟩ := h
    rw [Shared.clearFlags]
    split <;> exact .inl rfl
  all_goals obtain ⟨rfl, -⟩ := h; exact .inl rfl

/-! ## What a run leaves -/

/-- A blank entry, or one that a call has prepared. -/
def State.Prepared (s : State) (r : Ring) (e : Sqe) : Prop :=
  e = .zero ∨ ∃ c ∈ s.calls, e = r.sqe c.tail c.msg

/-- What is found in a state of any run from the memory `sh₀`. -/
structure Confined (r : Ring) (sh₀ : Shared) (s : State) : Prop where
  outside : SameOutside r sh₀ s.shared
  entries : ∀ k, s.Prepared r (s.shared.sqes k)
  requests : ∀ q ∈ s.reqs, s.Prepared r q.sqe
  texts : ∀ q ∈ s.reqs, ∀ text, q.text = some text → text.length = q.sqe.len
  -- the cookie and the length of one and the same entry
  posted : ∀ e ∈ s.posted, ∃ sqe, s.Prepared r sqe ∧
    e = { userData := sqe.userData, res := sqe.len }

/-- A call keeps its ticket and its message for ever. -/
theorem exists_call_of_step {a : Label} (hs : (system v r).step s a = some s') (hc : c ∈ s.calls) :
    ∃ c' ∈ s'.calls, c'.tail = c.tail ∧ c'.msg = c.msg := by
  cases a with
  | claim msg =>
    obtain rfl := step_claim hs
    exact ⟨c, List.mem_append_left _ hc, rfl, rfl⟩
  | call i =>
    obtain ⟨d, sh', d', hd, hstep, rfl⟩ := step_call hs
    obtain ⟨j, hj⟩ := List.mem_iff_getElem?.mp hc
    obtain ⟨hmsg, htail⟩ := Call.step_args hstep
    by_cases hij : j = i
    · subst hij
      obtain rfl : d = c := Option.some.inj (hd.symm.trans hj)
      exact ⟨d', List.mem_set (List.getElem?_eq_some_iff.mp hd).1 _, htail, hmsg⟩
    · exact ⟨c, List.mem_iff_getElem?.mpr ⟨j, by rw [List.getElem?_set_ne (Ne.symm hij), hj]⟩,
        rfl, rfl⟩
  | take => obtain ⟨-, -, rfl⟩ := step_take hs; exact ⟨c, hc, rfl, rfl⟩
  | write j => obtain ⟨q, -, -, rfl⟩ := step_write hs; exact ⟨c, hc, rfl, rfl⟩
  | complete j => obtain ⟨q, _, -, -, -, rfl⟩ := step_complete hs; exact ⟨c, hc, rfl, rfl⟩
  | poller a => rw [step_poller hs]; exact ⟨c, hc, rfl, rfl⟩

theorem State.Prepared.step {a : Label} {e : Sqe} (h : s.Prepared r e)
    (hs : (system v r).step s a = some s') : s'.Prepared r e := by
  refine h.imp_right ?_
  rintro ⟨c, hc, rfl⟩
  obtain ⟨c', hc', htail, hmsg⟩ := exists_call_of_step hs hc
  exact ⟨c', hc', by rw [htail, hmsg]⟩

namespace Confined

variable {sh₀ : Shared}

theorem of_init (h : Initial s) (hclear : ∀ k, s.shared.sqes k = .zero) :
    Confined r s.shared s where
  outside := ⟨fun _ _ => rfl, fun _ _ => rfl, fun _ _ => rfl⟩
  entries k := .inl (hclear k)
  requests := by simp [h.reqs]
  texts := by simp [h.reqs]
  posted := by simp [h.posted]

theorem step {a : Label} (h : Confined r sh₀ s) (hs : (system v r).step s a = some s') :
    Confined r sh₀ s' := by
  -- what was prepared in the state before the step is prepared in the state after it
  have hrequests : ∀ q ∈ s.reqs, s'.Prepared r q.sqe := fun q hq => (h.requests q hq).step hs
  have hentries : ∀ k, s'.Prepared r (s.shared.sqes k) := fun k => (h.entries k).step hs
  have hposted : ∀ e ∈ s.posted, ∃ sqe, s'.Prepared r sqe ∧
      e = { userData := sqe.userData, res := sqe.len } := by
    intro e he
    obtain ⟨sqe, hsqe, heq⟩ := h.posted e he
    exact ⟨sqe, hsqe.step hs, heq⟩
  cases a with
  | claim msg =>
    obtain rfl := step_claim hs
    exact ⟨⟨h.outside.mem, h.outside.sqes, h.outside.array⟩, hentries, hrequests, h.texts, hposted⟩
  | call i =>
    obtain ⟨c, sh', c', hc, hstep, rfl⟩ := step_call hs
    refine
      { outside := h.outside.trans (Call.step_sameOutside hstep), entries := fun k => ?_,
        requests := hrequests, texts := h.texts, posted := hposted }
    rcases Call.step_sqes hstep k with heq | heq | heq
    · show State.Prepared _ r (sh'.sqes k)
      rw [heq]
      exact hentries k
    · exact .inl heq
    · -- the entry is that of the call that has made the step
      obtain ⟨hmsg, htail⟩ := Call.step_args hstep
      refine .inr ⟨c', List.mem_set (List.getElem?_eq_some_iff.mp hc).1 _, ?_⟩
      rw [htail, hmsg]
      exact heq
  | take =>
    obtain ⟨-, -, rfl⟩ := step_take hs
    refine
      { outside := ⟨h.outside.mem, h.outside.sqes, h.outside.array⟩, entries := hentries,
        requests := fun q hq => ?_, texts := fun q hq => ?_, posted := hposted }
    · rcases List.mem_append.mp hq with hq | hq
      · exact hrequests q hq
      · -- the new request is an entry of the ring
        obtain rfl := List.mem_singleton.mp hq
        exact hentries _
    · rcases List.mem_append.mp hq with hq | hq
      · exact h.texts q hq
      · obtain rfl := List.mem_singleton.mp hq
        simp [State.nextRequest]
  | write j =>
    obtain ⟨q, hq, -, rfl⟩ := step_write hs
    have hmem := List.mem_of_getElem? hq
    refine
      { outside := h.outside, entries := hentries, requests := fun e he => ?_,
        texts := fun e he => ?_, posted := hposted }
    · rcases List.mem_or_eq_of_mem_set he with he | rfl
      · exact hrequests e he
      · exact hrequests q hmem
    · rcases List.mem_or_eq_of_mem_set he with he | rfl
      · exact h.texts e he
      · intro text htext
        rw [← Option.some.inj htext]
        exact length_read _ _ _
  | complete j =>
    obtain ⟨q, text, hq, htext, -, rfl⟩ := step_complete hs
    have hmem := List.mem_of_getElem? hq
    refine
      { outside := h.outside, entries := hentries, requests := fun e he => ?_,
        texts := fun e he => ?_, posted := fun e he => ?_ }
    · rcases List.mem_or_eq_of_mem_set he with he | rfl
      · exact hrequests e he
      · exact hrequests q hmem
    · rcases List.mem_or_eq_of_mem_set he with he | rfl
      · exact h.texts e he
      · exact h.texts q hmem
    · rcases List.mem_append.mp he with he | he
      · exact hposted e he
      · obtain rfl := List.mem_singleton.mp he
        exact ⟨q.sqe, hrequests q hmem, by rw [h.texts q hmem text htext]⟩
  | poller a =>
    rw [step_poller hs]
    exact ⟨⟨h.outside.mem, h.outside.sqes, h.outside.array⟩, h.entries, h.requests, h.texts,
      h.posted⟩

end Confined

/-- In every run on cleared entries, the calls have written only the slots of the ring, and what
the kernel has taken are blank entries and entries of single calls. -/
theorem Confined.of_runs {P : State → Label → Prop} {as : List Label}
    (h : (system v r).Runs P s₀ as s) (hclear : ∀ k, s₀.shared.sqes k = .zero) :
    Confined r s₀.shared s :=
  h.invariant (fun hinit => .of_init hinit hclear) fun _ _ _ hinv _ hs => hinv.step hs

end GpuLibc
