import GpuLibc.Lib.Linearization
import GpuLibc.Uring.Queue
import GpuLibc.Uring.WaitLoop

/-!
# Overlapping calls and the queue

Calls that overlap behave like operations of the bounded queue that take effect one at a time. A
call appends its message at the store of the tail, and the kernel removes one when it takes an
entry. The calls and takes of a run, seen as operations with a beginning and an end, are explained
by the queue in the order of these steps.

* `marks`: the beginning, the effect and the end of the operations.
* `timeline_of_runs`: in every run of every copy each operation takes effect between its beginning
  and its end.
* `linearizes_of_paced`: the queue explains every run that publishes in order.
-/

namespace GpuLibc

open BoundedQueue Linearization

variable {v : Variant} {r : Ring} {base : Word} {s₀ s s' t : State} {as : List Label} {i j p : ℕ}
  {c c' : Call} {o o' : RingOp} {ms new : List (Mark RingOp)}

/-- The operations on the queue of messages: a call of the routine by its ticket, and the taking of
an entry by its position. -/
inductive RingOp
  | pass (i : ℕ) (x : Seen)
  | take (j : ℕ) (x : Seen)
deriving DecidableEq

/-- The operation of the queue. -/
def RingOp.op : RingOp → Op Seen
  | .pass _ x => .enq x
  | .take _ x => .deq x

/-- What the next step of a call marks. -/
def Call.marks (v : Variant) (o : RingOp) (c : Call) : List (Mark RingOp) :=
  match c.phase with
  -- most copies return with the store of the tail
  | .storeTail => if v.afterPublish = .returned then [.point o, .respond o] else [.point o]
  | .clearFlags => [.respond o]
  | _ => []

/-- What a step marks. A call begins with its claim; an entry is taken in one step. -/
def marks (v : Variant) (r : Ring) (s : State) : Label → List (Mark RingOp)
  | .claim msg => [.invoke (.pass s.calls.length ((claim v s.shared msg).2.submitted r))]
  | .call i => (s.calls[i]?.map fun c => c.marks v (.pass i (c.submitted r))).getD []
  | .take =>
    let o := RingOp.take s.reqs.length (s.nextRequest r).seen
    [.invoke o, .point o, .respond o]
  | .write _ | .complete _ | .poller _ => []

/-! ## The timeline -/

/-- The calls with the property `done` are those that have been marked. -/
def Marked (r : Ring) (s : State) (ms : List (Mark RingOp)) (mark : RingOp → Mark RingOp)
    (done : Call → Bool) : Prop :=
  ∀ i x, mark (.pass i x) ∈ ms ↔ ∃ c, s.calls[i]? = some c ∧ c.submitted r = x ∧ done c = true

/-- The marks so far fit the state. -/
structure Timeline (r : Ring) (s : State) (ms : List (Mark RingOp)) : Prop where
  timed : Timed ms
  invoked : Marked r s ms .invoke fun _ => true
  pointed : Marked r s ms .point Call.published
  responded : Marked r s ms .respond fun c => c.phase = .returned
  taken : ∀ m ∈ ms, ∀ j x, m.item = .take j x → j < s.reqs.length

theorem Call.submitted_step {sh sh' : Shared} (hstep : c.step v r sh = some (sh', c')) :
    c'.submitted r = c.submitted r := by
  obtain ⟨hmsg, htail⟩ := Call.step_args hstep
  rw [submitted, submitted, hmsg, htail]

theorem Call.item_of_mem_marks {m : Mark RingOp} (hm : m ∈ c.marks v o) : m.item = o := by
  rw [marks] at hm
  split at hm
  · split at hm
    · rcases List.mem_pair.mp hm with rfl | rfl <;> rfl
    · rw [List.mem_singleton.mp hm]
      rfl
  · rw [List.mem_singleton.mp hm]
    rfl
  · cases hm

/-- A call takes effect when it stores the tail. -/
theorem Call.point_mem_marks {sh sh' : Shared} (hstep : c.step v r sh = some (sh', c')) :
    .point o' ∈ c.marks v o ↔ o' = o ∧ c'.published = true ∧ c.published = false := by
  rw [Call.step_published hstep]
  cases hphase : c.phase <;> simp [marks, published, hphase]
  case storeTail => split <;> simp

/-- A call ends when it returns. -/
theorem Call.respond_mem_marks {sh sh' : Shared} (hstep : c.step v r sh = some (sh', c')) :
    .respond o' ∈ c.marks v o ↔ o' = o ∧ c'.phase = .returned ∧ c.phase ≠ .returned := by
  cases hphase : c.phase <;>
    simp only [Call.step, hphase, Option.some.injEq, Prod.mk.injEq] at hstep
  case returned => contradiction
  case waitRoom =>
    obtain ⟨-, rfl⟩ := hstep
    split <;> simp [marks, hphase]
  case storeTail =>
    obtain ⟨-, rfl⟩ := hstep
    simp only [marks, hphase]
    split
    next hreturned => simp [hreturned]
    next hreturned => simp [hreturned]
  all_goals
    obtain ⟨-, rfl⟩ := hstep
    simp [marks, hphase]

namespace Marked

variable {mark : RingOp → Mark RingOp} {done : Call → Bool}

theorem congr (h : Marked r s ms mark done) (hcalls : s'.calls = s.calls) :
    Marked r s' ms mark done := by
  intro i x
  rw [hcalls]
  exact h i x

theorem of_calls_eq (h : Marked r s ms mark done) (hcalls : s'.calls = s.calls)
    (hnew : ∀ i x, mark (.pass i x) ∉ new) : Marked r s' (ms ++ new) mark done := by
  intro i x
  rw [List.mem_append, or_iff_left (hnew i x)]
  exact h.congr hcalls i x

theorem claim (h : Marked r s ms mark done) (hcalls : s'.calls = s.calls ++ [c])
    (hnew : ∀ i x, mark (.pass i x) ∈ new ↔
      i = s.calls.length ∧ x = c.submitted r ∧ done c = true) :
    Marked r s' (ms ++ new) mark done := by
  intro i x
  rw [List.mem_append, h i x, hnew i x, hcalls]
  constructor
  · rintro (⟨d, hd, hx, hdone⟩ | ⟨rfl, rfl, hdone⟩)
    · have hlt := (List.getElem?_eq_some_iff.mp hd).1
      exact ⟨d, by rw [List.getElem?_append_left hlt, hd], hx, hdone⟩
    · exact ⟨c, List.getElem?_concat_length, rfl, hdone⟩
  · rintro ⟨d, hd, hx, hdone⟩
    rcases getElem?_concat_cases hd with ⟨rfl, rfl⟩ | ⟨-, hd⟩
    · exact .inr ⟨rfl, hx.symm, hdone⟩
    · exact .inl ⟨d, hd, hx, hdone⟩

theorem call (h : Marked r s ms mark done) (hc : s.calls[i]? = some c)
    (hcalls : s'.calls = s.calls.set i c') (hsub : c'.submitted r = c.submitted r)
    (hdone : done c = true → done c' = true)
    (hnew : ∀ j x, mark (.pass j x) ∈ new ↔
      (j = i ∧ x = c.submitted r) ∧ done c' = true ∧ done c = false) :
    Marked r s' (ms ++ new) mark done := by
  intro j x
  have hlt := (List.getElem?_eq_some_iff.mp hc).1
  rw [List.mem_append, h j x, hnew j x, hcalls]
  constructor
  · rintro (⟨d, hd, hx, hdone'⟩ | ⟨⟨rfl, rfl⟩, hdone', -⟩)
    · by_cases hij : i = j
      · subst hij
        obtain rfl : c = d := Option.some.inj (hc.symm.trans hd)
        exact ⟨c', List.getElem?_set_self hlt, hsub.trans hx, hdone hdone'⟩
      · exact ⟨d, by rw [List.getElem?_set_ne hij, hd], hx, hdone'⟩
    · exact ⟨c', List.getElem?_set_self hlt, hsub, hdone'⟩
  · rintro ⟨d, hd, hx, hdone'⟩
    rcases getElem?_set_cases hd with ⟨rfl, rfl⟩ | ⟨-, hd⟩
    · -- it was marked before, or it is marked now
      cases hbefore : done c with
      | true => exact .inl ⟨c, hc, hsub.symm.trans hx, hbefore⟩
      | false => exact .inr ⟨⟨rfl, hx.symm.trans hsub⟩, hdone', rfl⟩
    · exact .inl ⟨d, hd, hx, hdone'⟩

end Marked

namespace Timeline

theorem of_init (h : Initial s) : Timeline r s [] where
  timed := .nil
  invoked i x := by simp [h.calls]
  pointed i x := by simp [h.calls]
  responded i x := by simp [h.calls]
  taken := by simp

/-- Steps that mark nothing. -/
theorem of_calls_eq (h : Timeline r s ms) (hcalls : s'.calls = s.calls)
    (hreqs : s'.reqs.length = s.reqs.length) : Timeline r s' ms where
  timed := h.timed
  invoked := h.invoked.congr hcalls
  pointed := h.pointed.congr hcalls
  responded := h.responded.congr hcalls
  taken m hm j x hx := hreqs ▸ h.taken m hm j x hx

theorem claim (h : Timeline r s ms) {msg : Message}
    (hs : (system v r).step s (.claim msg) = some s') :
    Timeline r s' (ms ++ marks v r s (.claim msg)) := by
  have hpub : (GpuLibc.claim v s.shared msg).2.published = false := by cases v <;> rfl
  have hret : (GpuLibc.claim v s.shared msg).2.phase ≠ .returned := by
    cases v <;> simp [GpuLibc.claim, Variant.afterClaim]
  obtain rfl := step_claim hs
  refine { timed := ?timed, invoked := ?invoked, pointed := ?pointed, responded := ?responded
           taken := ?taken }
  case timed =>
    refine h.timed.invoke fun hmem => ?_
    obtain ⟨c, hc, -⟩ := (h.invoked _ _).mp hmem
    exact absurd (List.getElem?_eq_some_iff.mp hc).1 (lt_irrefl _)
  case invoked => exact h.invoked.claim rfl fun i x => by simp [marks, GpuLibc.claim]
  case pointed =>
    refine h.pointed.claim rfl fun i x => ?_
    simp only [marks, List.mem_singleton, reduceCtorEq, false_iff]
    rintro ⟨-, -, hdone⟩
    exact absurd (hpub.symm.trans hdone) (by decide)
  case responded =>
    refine h.responded.claim rfl fun i x => ?_
    simp only [marks, List.mem_singleton, reduceCtorEq, false_iff]
    rintro ⟨-, -, hdone⟩
    exact hret (of_decide_eq_true hdone)
  case taken =>
    intro m hm j x hx
    rcases List.mem_append.mp hm with hm | hm
    · exact h.taken m hm j x hx
    · rw [List.mem_singleton.mp hm] at hx
      cases hx

/-- The marks of a call are in time. -/
theorem timed_marks (h : Timeline r s ms) (hc : s.calls[i]? = some c) :
    Timed (ms ++ c.marks v (.pass i (c.submitted r))) := by
  have hinvoke : .invoke (.pass i (c.submitted r)) ∈ ms :=
    (h.invoked _ _).mpr ⟨c, hc, rfl, rfl⟩
  have hpoint : .point (.pass i (c.submitted r)) ∈ ms ↔ c.published = true := by
    rw [h.pointed i _]
    simp [hc]
  have hrespond : .respond (.pass i (c.submitted r)) ∈ ms ↔ c.phase = .returned := by
    rw [h.responded i _]
    simp [hc]
  cases hphase : c.phase <;> simp only [Call.marks, hphase]
  case storeTail =>
    have hnew : .point (.pass i (c.submitted r)) ∉ ms := by
      simp [hpoint, Call.published, hphase]
    have htimed := h.timed.point hinvoke hnew
    by_cases hreturned : v.afterPublish = .returned
    · -- the call returns with the same step
      rw [if_pos hreturned, ← List.singleton_append, ← List.append_assoc]
      refine htimed.respond (by simp) ?_
      simp [hrespond, hphase]
    · rwa [if_neg hreturned]
  case clearFlags =>
    refine h.timed.respond ?_ ?_
    · rw [hpoint, Call.published, hphase]
    · simp [hrespond, hphase]
  all_goals
    rw [List.append_nil]
    exact h.timed

theorem call (h : Timeline r s ms) (hs : (system v r).step s (.call i) = some s') :
    Timeline r s' (ms ++ marks v r s (.call i)) := by
  obtain ⟨c, sh', c', hc, hstep, rfl⟩ := step_call hs
  have hsub : c'.submitted r = c.submitted r := Call.submitted_step hstep
  have hmarks : marks v r s (.call i) = c.marks v (.pass i (c.submitted r)) := by
    rw [marks, hc, Option.map_some, Option.getD_some]
  rw [hmarks]
  refine { timed := h.timed_marks hc, invoked := ?invoked, pointed := ?pointed
           responded := ?responded, taken := ?taken }
  case invoked =>
    refine h.invoked.call hc rfl hsub id fun j x => ?_
    cases hphase : c.phase <;> simp [Call.marks, hphase]
    split <;> simp
  case pointed =>
    refine h.pointed.call hc rfl hsub (fun hdone => ?_) fun j x => ?_
    · exact (Call.step_published hstep).mpr (.inl hdone)
    · rw [Call.point_mem_marks hstep, RingOp.pass.injEq]
  case responded =>
    refine h.responded.call hc rfl hsub (fun hdone => ?_) fun j x => ?_
    · -- a call that has returned makes no step
      rw [Call.step, of_decide_eq_true hdone] at hstep
      cases hstep
    · rw [Call.respond_mem_marks hstep, RingOp.pass.injEq, decide_eq_true_iff,
        decide_eq_false_iff_not]
  case taken =>
    intro m hm j x hx
    rcases List.mem_append.mp hm with hm | hm
    · exact h.taken m hm j x hx
    · rw [Call.item_of_mem_marks hm] at hx
      cases hx

theorem take (h : Timeline r s ms) (hs : (system v r).step s .take = some s') :
    Timeline r s' (ms ++ marks v r s .take) := by
  obtain ⟨-, -, rfl⟩ := step_take hs
  refine { timed := ?timed, invoked := ?invoked, pointed := ?pointed, responded := ?responded
           taken := ?taken }
  case timed => exact h.timed.atomic fun m hm hitem => lt_irrefl _ (h.taken m hm _ _ hitem)
  case invoked => exact h.invoked.of_calls_eq rfl fun i x => by simp [marks]
  case pointed => exact h.pointed.of_calls_eq rfl fun i x => by simp [marks]
  case responded => exact h.responded.of_calls_eq rfl fun i x => by simp [marks]
  case taken =>
    intro m hm j x hx
    rw [List.length_append, List.length_singleton]
    rcases List.mem_append.mp hm with hm | hm
    · exact Nat.lt_succ_of_lt (h.taken m hm j x hx)
    · have hitem : m.item = .take s.reqs.length (s.nextRequest r).seen := by
        simp only [marks, List.mem_cons, List.not_mem_nil, or_false] at hm
        rcases hm with rfl | rfl | rfl <;> rfl
      obtain ⟨rfl, -⟩ := RingOp.take.inj (hitem.symm.trans hx)
      exact Nat.lt_succ_self _

/-- Every step of every copy marks what it does in time. -/
theorem step {a : Label} (h : Timeline r s ms) (hs : (system v r).step s a = some s') :
    Timeline r s' (ms ++ marks v r s a) := by
  cases a with
  | claim msg => exact h.claim hs
  | call i => exact h.call hs
  | take => exact h.take hs
  | write j =>
    obtain ⟨q, -, -, rfl⟩ := step_write hs
    rw [marks, List.append_nil]
    exact h.of_calls_eq rfl (List.length_set ..)
  | complete j =>
    obtain ⟨q, _, -, -, -, rfl⟩ := step_complete hs
    rw [marks, List.append_nil]
    exact h.of_calls_eq rfl (List.length_set ..)
  | poller a =>
    rw [step_poller hs, marks, List.append_nil]
    exact h.of_calls_eq rfl rfl

end Timeline

/-- In every run of every copy the operations take effect between their beginnings and their
ends. -/
theorem timeline_of_runs {P : State → Label → Prop} (h : (system v r).Runs P s₀ as s) :
    Timeline r s ((system v r).trace (marks v r) s₀ as) := by
  induction h with
  | start hinit => exact .of_init hinit
  | step hr _ hs ih =>
    rw [hr.trace_concat]
    exact ih.step hs

/-! ## The queue -/

/-- The tickets are published in order, and the calls of the copies without the wait loop start to
write only with room. -/
def Paced (v : Variant) (r : Ring) (s : State) (a : Label) : Prop :=
  InOrder s a ∧ (v ≠ .gpuSvmDemo → startsWithRoom r s a)

instance (v : Variant) (r : Ring) (s : State) (a : Label) : Decidable (Paced v r s a) :=
  inferInstanceAs (Decidable (_ ∧ _))

/-- The wait loop lets calls start with room only. -/
theorem runs_roomInOrder (h : (system v r).Runs (Paced v r) s₀ as s) :
    (system v r).Runs (RoomInOrder r) s₀ as s := by
  by_cases hv : v = .gpuSvmDemo
  · subst hv
    refine h.imp (I := fun s => ∃ p, InOrder.Inv r s₀.shared.sringTail s p)
      (fun hinit => ⟨0, .of_init hinit⟩) (fun _ _ _ ⟨_, hinv⟩ hg hs => hinv.step hg.1 hs) ?_
    rintro s a ⟨p, hinv⟩ hg
    refine ⟨hg.1, ?_⟩
    cases a with
    | call i =>
      intro hclears
      obtain ⟨c, hc, hphase⟩ := Option.map_eq_some_iff.mp hclears
      exact hinv.room i c hc (by simp [hphase])
    | _ => trivial
  · exact h.mono fun s a hg => ⟨hg.1, hg.2 hv⟩

theorem Call.submitted_eq {d : Call} (h : c.settled = d.settled) :
    c.submitted r = d.submitted r := by
  rw [submitted, submitted, msg_eq h, tail_eq h]

namespace Mirrors

theorem published_eq (h : Mirrors s t) : t.published = s.published := by
  have hmap := h.map_eq Call.published fun _ _ => Call.published_eq
  have hcount := congrArg (List.countP id) hmap
  rwa [List.countP_map, List.countP_map] at hcount

theorem queued_eq (h : Mirrors s t) (p : ℕ) : t.queued r p = s.queued r p := by
  have hmap := h.map_eq (Call.submitted r) fun _ _ => Call.submitted_eq
  rw [State.queued, State.queued, hmap, h.reqs]

theorem nextRequest_eq (h : Mirrors s t) : t.nextRequest r = s.nextRequest r := by
  obtain ⟨flags, hshared⟩ := h.shared
  rw [State.nextRequest, State.nextRequest, hshared]

end Mirrors

/-- The ring shows the queue `q`, as it cannot be told from that of `gpu_svm_demo` in order. -/
def MirrorsQueue (r : Ring) (base : Word) (s : State) (q : List Seen) : Prop :=
  (∃ t p, Mirrors s t ∧ InOrder.Inv r base t p) ∧ q = s.queued r s.published

/-- The published calls when one call is replaced. -/
theorem State.published_set (hc : s.calls[i]? = some c) (sh : Shared) (c' : Call) :
    State.published { s with shared := sh, calls := s.calls.set i c' } +
        (if c.published then 1 else 0) =
      s.published + if c'.published then 1 else 0 := by
  obtain ⟨hlt, rfl⟩ := List.getElem?_eq_some_iff.mp hc
  have hle := List.boole_getElem_le_countP (p := Call.published) hlt
  simp only [State.published, List.countP_set hlt]
  omega

namespace MirrorsQueue

theorem of_init (h : Initial s) : MirrorsQueue r s.shared.sringTail s [] :=
  ⟨⟨s, 0, .refl s, .of_init h⟩, by simp [State.queued, State.published, h.calls]⟩

/-- The queue after a step of a call. -/
theorem call (hmir : Mirrors s t) (hinv : InOrder.Inv r base t p) (hg : InOrder s (.call i))
    (hs : (system v r).step s (.call i) = some s') :
    (machine Seen r.entries).run (s.queued r s.published)
      ((points (marks v r s (.call i))).map RingOp.op) = some (s'.queued r s'.published) := by
  obtain ⟨c, sh', c', hc, hstep, rfl⟩ := step_call hs
  have hcount := State.published_set hc sh' c'
  have hmarks : marks v r s (.call i) = c.marks v (.pass i (c.submitted r)) := by
    rw [marks, hc, Option.map_some, Option.getD_some]
  have hqueued (n : ℕ) :
      State.queued r { s with shared := sh', calls := s.calls.set i c' } n = s.queued r n := by
    rw [State.queued, State.queued]
    exact congrArg _ (congrArg _ (map_set_eq hc (Call.submitted_step hstep)))
  rw [hmarks, hqueued]
  by_cases hphase : c.phase = .storeTail
  · -- the store of the tail appends the message
    have hpub : s.publishes i := by simp [State.publishes, hc, hphase]
    obtain ⟨d, hd, heq⟩ := hmir.exists_call hc
    obtain rfl | ⟨hother, -⟩ := Call.eq_of_settled heq.symm (by simp [hphase]) (by simp [hphase])
      (by simp [hphase])
    swap
    · rw [hphase] at hother
      cases hother
    have hpubt : t.publishes i := by simp [State.publishes, hd, hphase]
    obtain rfl := hinv.eq_of_publishes hd hphase ((hmir.inOrder hg).2 hpubt)
    have hlen : (t.queued r i).length < r.entries := by
      have hroom := hinv.room i d hd (by simp [hphase])
      have htaken := hinv.taken_le
      rw [hinv.length_queued]
      omega
    have hpoints : (points (d.marks v (.pass i (d.submitted r)))).map RingOp.op =
        [.enq (d.submitted r)] := by
      simp only [Call.marks, hphase]
      split <;> rfl
    have hbefore : s.published = i := hmir.published_eq.symm.trans hinv.published_eq
    have hafter : c'.published = true := (Call.step_published hstep).mpr (.inr hphase)
    rw [Call.published_of_storeTail hphase, hafter, hbefore, if_neg Bool.false_ne_true, if_pos rfl,
      Nat.add_zero] at hcount
    rw [hpoints, hbefore, hcount, ← hmir.queued_eq, ← hmir.queued_eq, queued_storeTail hinv hd]
    simp [Machine.run, step_enq hlen]
  · -- nothing else of a call shows in the queue
    have hpoints : points (c.marks v (.pass i (c.submitted r))) = [] := by
      cases hphase' : c.phase <;> simp [Call.marks, hphase', points] at hphase ⊢
    have hsame : c'.published = c.published := by
      rw [Bool.eq_iff_iff, Call.step_published hstep, or_iff_left hphase]
    rw [hpoints, List.map_nil, Machine.run_nil]
    congr 2
    rw [hsame] at hcount
    omega

/-- The queue after an entry has been taken. -/
theorem take (hmir : Mirrors s t) (hinv : InOrder.Inv r base t p)
    (hs : (system v r).step s .take = some s') :
    (machine Seen r.entries).run (s.queued r s.published)
      ((points (marks v r s .take)).map RingOp.op) = some (s'.queued r s'.published) := by
  obtain ⟨-, hne, rfl⟩ := step_take hs
  obtain ⟨flags, hshared⟩ := hmir.shared
  -- the head has not reached the tail
  have hlt : t.reqs.length < p := by
    refine lt_of_le_of_ne hinv.taken_le fun heq => hne ?_
    have hempty := hinv.head_eq_tail_iff.mpr heq
    rwa [hshared] at hempty
  have hbefore : s.published = p := hmir.published_eq.symm.trans hinv.published_eq
  have hfront : s.queued r p = (s.nextRequest r).seen ::
      ((s.calls.map (Call.submitted r)).take p).drop (s.reqs.length + 1) := by
    have hmap := hmir.map_eq (Call.submitted r) fun _ _ => Call.submitted_eq
    rw [← hmir.nextRequest_eq, ← hmir.queued_eq, queued_eq_cons hinv hlt, hmir.reqs, hmap]
  have hpoints : (points (marks v r s .take)).map RingOp.op = [.deq (s.nextRequest r).seen] := rfl
  rw [hpoints, hbefore, hfront]
  simp only [Machine.run, step_deq, Option.bind_some, State.queued, List.length_append,
    List.length_singleton]
  rw [← hbefore]
  rfl

/-- A step that neither publishes nor takes leaves the queue alone. -/
theorem of_eq (hcalls : s'.calls = s.calls) (hreqs : s'.reqs.length = s.reqs.length) :
    (machine Seen r.entries).run (s.queued r s.published) [] =
      some (s'.queued r s'.published) := by
  rw [Machine.run_nil, State.queued, State.queued, State.published, State.published, hcalls, hreqs]

/-- Every step with room is matched by the queue. -/
theorem step {q : List Seen} {a : Label} (h : MirrorsQueue r base s q) (hg : RoomInOrder r s a)
    (hs : (system v r).step s a = some s') :
    ∃ q', (machine Seen r.entries).run q ((points (marks v r s a)).map RingOp.op) = some q' ∧
      MirrorsQueue r base s' q' := by
  obtain ⟨⟨t, p, hmir, hinv⟩, rfl⟩ := h
  obtain ⟨t', -, hmir', p', hinv'⟩ := exists_demo_step hmir hinv hg hs
  refine ⟨s'.queued r s'.published, ?_, ⟨t', p', hmir', hinv'⟩, rfl⟩
  cases a with
  | claim msg =>
    -- a claimed ticket is not in the queue yet
    obtain rfl := step_claim hs
    have hle := hinv.le_claimed
    rw [hmir.length_eq, ← hinv.published_eq, hmir.published_eq] at hle
    have hnew : Call.published { msg, tail := s.shared.sqTailCache, phase := v.afterClaim } =
        false := by
      cases v <;> rfl
    have hpoints : (points (marks v r s (.claim msg))).map RingOp.op = [] := rfl
    rw [hpoints, Machine.run_nil]
    simp only [State.queued, State.published, List.countP_append, List.countP_singleton, hnew,
      List.map_append]
    rw [if_neg (by decide), Nat.add_zero, List.take_append_of_le_length (by rwa [List.length_map])]
  | call i => exact call hmir hinv hg.1 hs
  | take => exact take hmir hinv hs
  | write j =>
    obtain ⟨q, -, -, rfl⟩ := step_write hs
    exact of_eq rfl (List.length_set ..)
  | complete j =>
    obtain ⟨q, _, -, -, -, rfl⟩ := step_complete hs
    exact of_eq rfl (List.length_set ..)
  | poller a =>
    rw [step_poller hs]
    exact of_eq rfl rfl

end MirrorsQueue

/-- The queue accepts the operations of a run with room in the order in which they take effect. -/
theorem accepted_of_runs (h : (system v r).Runs (RoomInOrder r) s₀ as s) :
    ∃ q, (machine Seen r.entries).run []
        ((points ((system v r).trace (marks v r) s₀ as)).map RingOp.op) = some q ∧
      MirrorsQueue r s₀.shared.sringTail s q := by
  induction h with
  | start hinit => exact ⟨[], rfl, .of_init hinit⟩
  | step hr hg hs ih =>
    obtain ⟨q, hrun, hq⟩ := ih
    obtain ⟨q', hrun', hq'⟩ := hq.step hg hs
    refine ⟨q', ?_, hq'⟩
    rw [hr.trace_concat, points_append, List.map_append, Machine.run_append, hrun]
    exact hrun'

/-- For every run of every copy that publishes in ticket order, with room at the first write where
the copy does not wait for it, and however its calls overlap: the history of the calls and of the
kernel's takes is explained by a bounded FIFO queue on which the calls pass their messages one at
a time, each between its beginning and its return. -/
theorem linearizes_of_paced (h : (system v r).Runs (Paced v r) s₀ as s) :
    Linearizes (machine Seen r.entries) [] RingOp.op
      (history ((system v r).trace (marks v r) s₀ as))
      (points ((system v r).trace (marks v r) s₀ as)) := by
  obtain ⟨q, hrun, -⟩ := accepted_of_runs (runs_roomInOrder h)
  exact (timeline_of_runs h).timed.linearizes hrun

/-- Two calls of the copy that tests the flag word: the second one begins first to write, and the
first entry is taken before the second call returns. -/
def overlapping : List Label :=
  [.claim helloA, .claim helloB, .call 1, .call 0] ++ List.replicate 5 (.call 0) ++
    List.replicate 4 (.call 1) ++ [.take, .call 1, .call 0, .take, .call 1]

theorem linearizes_overlapping :
    ∃ order, Linearizes (machine Seen 16) [] RingOp.op
      (history ((system .ioUringGpuNoPoll demoRing).trace (marks .ioUringGpuNoPoll demoRing)
        .afterSetup overlapping)) order ∧ order.length = 4 := by
  have hrun : (system .ioUringGpuNoPoll demoRing).Runs (Paced .ioUringGpuNoPoll demoRing)
      .afterSetup overlapping _ :=
    .of_runUnder State.initial_afterSetup (by decide +kernel)
  exact ⟨_, linearizes_of_paced hrun, by decide +kernel⟩

end GpuLibc
