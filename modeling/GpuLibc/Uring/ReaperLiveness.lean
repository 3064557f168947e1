import GpuLibc.Lib.Fairness
import GpuLibc.Uring.CompletionPath

/-!
# Every completion is reaped

When a host thread calls `uring_process_completions` over and over and is not put off for ever,
every completion is visited, whatever the kernel posts in the meantime, and a full completion ring
does not stay full.

* `Reaping.Covers`: the call in progress visits a given completion before it ends.
* `reaped_of_fair`: every completion is visited, and every time there is room again.
-/

namespace GpuLibc

open Counter Machine

variable {v : Reaper} {q : CqRing} {base : Word} {s s' : Reaping} {n k : ℕ}

namespace Reaping

/-- The completion with index `k` has been visited when the call in progress ends. -/
def Covers (k : ℕ) (s : Reaping) : Prop :=
  match s.reader with
  | .idle => k < s.visited.length
  | .loadTail _ => k < s.posted.length
  | .loop _ head tail _ => k < s.visited.length + (tail - head).toNat
  | .print _ head tail _ _ => k < s.visited.length + (tail - head).toNat

/-- A post changes neither the call in progress nor what it has visited. -/
theorem step_post {c : Cqe} (hs : (reaping v q).step s (.post c) = some s') :
    (s.cringTail - s.cringHead).toNat < q.size ∧ s'.reader = s.reader ∧ s'.visited = s.visited ∧
      s'.posted = s.posted ++ [c] := by
  obtain ⟨hfree, rfl⟩ := post_eq_some hs
  exact ⟨hfree, rfl, rfl, rfl⟩

theorem stepsLeft_post {c : Cqe} (hs : (reaping v q).step s (.post c) = some s') :
    s'.stepsLeft q = s.stepsLeft q := by
  rw [stepsLeft, stepsLeft, (step_post hs).2.1]

theorem posted_step {a : ReapingLabel} (hs : (reaping v q).step s a = some s') :
    s.posted <+: s'.posted := by
  cases a with
  | post c =>
    rw [(step_post hs).2.2.2]
    exact List.prefix_append _ _
  | read =>
    obtain rfl := Option.some.inj hs
    exact (posted_read v q s).symm ▸ List.prefix_rfl

theorem Covers.post {c : Cqe} (h : Covers k s) (hs : (reaping v q).step s (.post c) = some s') :
    Covers k s' := by
  obtain ⟨-, hreader, hvisited, hposted⟩ := step_post hs
  unfold Covers at h ⊢
  rw [hreader, hvisited]
  cases hr : s.reader with
  | loadTail head =>
    rw [hr] at h
    rw [hposted, List.length_append]
    exact Nat.lt_add_right _ h
  | _ =>
    rw [hr] at h
    exact h

namespace Inv

/-- The wrapped distance of the counters is the number of completions that are not freed. -/
theorem toNat_tail_sub_head (h : Inv v q base s n) :
    (s.cringTail - s.cringHead).toNat = s.posted.length - n := by
  have hsize := q.size_lt
  have hle := h.freed_le.trans h.visited_le
  have hroom := h.room
  rw [h.tail, h.head, toNat_after_sub hle (by omega)]

/-- A call visits everything up to the tail that it has loaded. -/
theorem covers_read (h : Inv v q base s n) (hcovers : Covers k s) (hreader : s.reader ≠ .idle) :
    Covers k (s.read v q) := by
  have hphase := h.phase
  unfold Covers at hcovers
  cases hr : s.reader with
  | idle => exact absurd hr hreader
  | loadTail head =>
    rw [hr] at hphase hcovers
    obtain ⟨hhead, hlen, -⟩ := hphase
    have hdist := h.toNat_tail_sub_head
    have hvisited := h.visited_le
    rw [h.head, ← hhead] at hdist
    simp only [Covers, Reaping.read, hr]
    omega
  | loop start head tail steps =>
    rw [hr] at hcovers
    by_cases hne : head ≠ tail
    · have hstep := toNat_sub_add_one hne
      by_cases hprints : v.prints = true
      · simpa only [Covers, Reaping.read, hr, if_pos hne, if_pos hprints] using hcovers
      · simp only [Covers, Reaping.read, hr, if_pos hne, if_neg hprints, List.length_append,
          List.length_singleton]
        omega
    · -- the call ends at the tail
      obtain rfl := not_not.mp hne
      simpa [Covers, Reaping.read, hr] using hcovers
  | print start head tail steps userData =>
    rw [hr] at hcovers
    have hstep := toNat_sub_add_one (h.head_ne_tail hr)
    simp only [Covers, Reaping.read, hr, List.length_append, List.length_singleton]
    omega

end Inv

end Reaping

/-! ## Calls over and over -/

section Execution

variable {e : (reaping v q).Execution fun _ _ => True}

theorem reaping_inv_of_execution (e : (reaping v q).Execution fun _ _ => True) (m : ℕ) :
    ∃ n, Reaping.Inv v q (e.state 0).cringTail (e.state m) n := by
  obtain ⟨as, hruns⟩ := e.exists_runs m
  exact reaping_inv hruns

/-- The call in progress ends, with what posts and its own steps keep. -/
theorem idle_of_fair {Q : Reaping → Prop} (hread : e.Fair .read)
    (hpost : ∀ s c s', Q s → (reaping v q).step s (.post c) = some s' → Q s')
    (hcall : ∀ s n, Reaping.Inv v q (e.state 0).cringTail s n → Q s → s.reader ≠ .idle →
      Q (s.read v q)) :
    e.LeadsTo Q fun s => Q s ∧ s.reader = .idle := by
  have hbusy {s : Reaping} (hleft : s.stepsLeft q ≠ 0) : s.reader ≠ .idle := by
    intro hidle
    simp [Reaping.stepsLeft, hidle] at hleft
  have hleads : e.LeadsTo Q fun s => Q s ∧ s.stepsLeft q = 0 := by
    refine Execution.leadsTo_of_decreasing
      (I := fun s => ∃ n, Reaping.Inv v q (e.state 0).cringTail s n) (Reaping.stepsLeft q) hread
      (reaping_inv_of_execution e) ?enabled ?taken ?kept
    case enabled => exact fun s _ _ _ => ⟨trivial, _, rfl⟩
    case taken =>
      rintro s s' ⟨n, hinv⟩ hQ hleft - hs
      obtain rfl := Option.some.inj hs
      exact ⟨hcall s n hinv hQ (hbusy hleft), hinv.stepsLeft_read (hbusy hleft)⟩
    case kept =>
      rintro s b s' - hQ - - hs hb
      cases b with
      | post c => exact ⟨hpost s c s' hQ hs, Reaping.stepsLeft_post hs⟩
      | read => exact absurd rfl hb
  intro m hm
  obtain ⟨l, hml, hQ, hleft⟩ := hleads m hm
  obtain ⟨n, hinv⟩ := reaping_inv_of_execution e l
  refine ⟨l, hml, hQ, ?_⟩
  by_contra hreader
  exact (hinv.stepsLeft_pos hreader).ne' hleft

/-- A completion that has been posted has been visited by the end of the next call. -/
theorem visited_of_fair (hread : e.Fair .read) (k : ℕ) :
    e.LeadsTo (fun s => k < s.posted.length)
      fun s => k < s.visited.length ∧ s.reader = .idle := by
  have hposted {a : ReapingLabel} {s s' : Reaping} (hk : k < s.posted.length)
      (hs : (reaping v q).step s a = some s') : k < s'.posted.length :=
    hk.trans_le (Reaping.posted_step hs).length_le
  -- the call in progress ends, and another one begins
  have hend := idle_of_fair (Q := fun s => k < s.posted.length) hread
    (fun _ _ _ hk hs => hposted hk hs) fun _ _ _ hk _ => hposted hk (a := .read) rfl
  have hbegin : e.LeadsTo (fun s => k < s.posted.length ∧ s.reader = .idle) (Reaping.Covers k) := by
    refine Execution.leadsTo_of_fair (I := fun _ => True) hread (fun _ => trivial) ?_ ?_ ?_
    · exact fun s _ _ => ⟨trivial, _, rfl⟩
    · rintro s s' - ⟨hk, hidle⟩ - hs
      obtain rfl := Option.some.inj hs
      simpa only [Reaping.Covers, Reaping.read, hidle] using hk
    · rintro s b s' - ⟨hk, hidle⟩ - hs hb
      cases b with
      | post c => exact .inl ⟨hposted hk hs, (Reaping.step_post hs).2.1.trans hidle⟩
      | read => exact absurd rfl hb
  have hcovered := idle_of_fair hread (fun _ _ _ hk hs => Reaping.Covers.post hk hs)
    fun _ _ hinv hk hreader => hinv.covers_read (k := k) hk hreader
  refine hend.trans (hbegin.trans (hcovered.trans (.of_imp ?_)))
  rintro s ⟨hcovers, hidle⟩
  rw [Reaping.Covers, hidle] at hcovers
  exact ⟨hcovers, hidle⟩

/-- The ring does not stay full. -/
theorem room_of_fair (hread : e.Fair .read) :
    e.LeadsTo (fun _ => True) fun s => (s.cringTail - s.cringHead).toNat < q.size := by
  rintro n -
  by_contra hnever
  have hfull : ∀ m, n ≤ m →
      ¬ ((e.state m).cringTail - (e.state m).cringHead).toNat < q.size :=
    fun m hm hroom => hnever ⟨m, hm, hroom⟩
  -- nothing is posted into a full ring
  have hposted : ∀ m, n ≤ m → (e.state m).posted = (e.state n).posted := by
    intro m hm
    induction m, hm using Nat.le_induction with
    | base => rfl
    | succ m hm ih =>
      cases hlabel : e.label m with
      | none => rw [e.idle m hlabel, ih]
      | some a =>
        obtain ⟨-, hs⟩ := e.next m a hlabel
        cases a with
        | post c => exact absurd (Reaping.step_post hs).1 (hfull m hm)
        | read =>
          rw [← ih, ← Option.some.inj hs]
          exact Reaping.posted_read v q _
  have hsize : 0 < q.size := Nat.two_pow_pos _
  obtain ⟨f, hinv⟩ := reaping_inv_of_execution e n
  have hdist := hinv.toNat_tail_sub_head
  have hlast : (e.state n).posted.length - 1 < (e.state n).posted.length := by
    have hnot := hfull n le_rfl
    omega
  -- when everything has been visited and no call is in progress, everything is freed
  obtain ⟨m, hm, hvisited, hidle⟩ := visited_of_fair hread _ n hlast
  obtain ⟨f', hinv'⟩ := reaping_inv_of_execution e m
  have hphase := hinv'.phase
  rw [hidle] at hphase
  have hdist' := hinv'.toNat_tail_sub_head
  have hlen : (e.state m).visited.length = f' := hphase
  rw [hposted m hm] at hdist'
  exact hfull m hm (by omega)

/-- When a host thread calls the routine over and over and is not put off for ever, every
completion posted is visited in its place, the printing copy prints its line, and the ring has room
again and again. -/
theorem reaped_of_fair (hread : e.Fair .read) :
    (∀ (i : ℕ) (c : Cqe), e.LeadsTo (fun s => s.posted[i]? = some c) fun s =>
        s.visited[i]? = some c ∧
          (v.prints = true → s.stderr[i]? = some (cqeLine c.userData c.res))) ∧
      e.LeadsTo (fun _ => True) fun s => (s.cringTail - s.cringHead).toNat < q.size := by
  refine ⟨fun i c => ?_, room_of_fair hread⟩
  have hkeep := (visited_of_fair hread i).and_stable (S := fun s => s.posted[i]? = some c)
    fun _ _ _ hc _ hs => by
      obtain ⟨hlt, rfl⟩ := List.getElem?_eq_some_iff.mp hc
      exact List.prefix_iff_getElem?.mp (Reaping.posted_step hs) i hlt
  intro n hn
  obtain ⟨m, hnm, ⟨hlt, -⟩, hc⟩ := hkeep n ⟨(List.getElem?_eq_some_iff.mp hn).1, hn⟩
  obtain ⟨f, hinv⟩ := reaping_inv_of_execution e m
  have hvisited : (e.state m).visited[i]? = some c := by
    rw [hinv.log, List.getElem?_take_of_lt hlt, hc]
  refine ⟨m, hnm, hvisited, fun hprints => ?_⟩
  rw [hinv.stderr, Reaper.lines, if_pos hprints, List.getElem?_map, hvisited, Option.map_some]

end Execution

/-- A completion arrives in front of a call and another one during it, behind the load of the
tail. -/
def arrivingLate : List ReapingLabel := [.post ⟨0, 24⟩, .read, .read, .post ⟨1, 44⟩]

theorem reaped_arrivingLate :
    ∃ (s : Reaping) (e : (reaping .ioUringSvmCpuOnly ⟨2, by decide⟩).Execution fun _ _ => True),
      (reaping .ioUringSvmCpuOnly ⟨2, by decide⟩).Runs (fun _ _ => True) aboutToWrap
        arrivingLate s ∧
      e.state arrivingLate.length = s ∧ e.Fair .read ∧
      ∃ m, arrivingLate.length ≤ m ∧ (e.state m).visited[1]? = some ⟨1, 44⟩ := by
  have hrun : (reaping .ioUringSvmCpuOnly ⟨2, by decide⟩).Runs (fun _ _ => True) aboutToWrap
      arrivingLate _ := .of_runUnder initial_aboutToWrap (by decide +kernel)
  have hread : ∀ s : Reaping, True ∧ (reaping .ioUringSvmCpuOnly ⟨2, by decide⟩).step s .read =
      some (s.read .ioUringSvmCpuOnly ⟨2, by decide⟩) := fun s => ⟨trivial, rfl⟩
  have hfair := Execution.fair_forever hrun hread
  obtain ⟨m, hlate, hm, -⟩ := (reaped_of_fair hfair).1 1 ⟨1, 44⟩ arrivingLate.length (by
    rw [Execution.forever_state]
    decide +kernel)
  exact ⟨_, _, hrun, Execution.forever_state hrun hread, hfair, m, hlate, hm⟩

end GpuLibc
