import GpuLibc.Uring.System

/-!
# A call by itself

What a call does to the shared memory when nobody else moves between its claim and its return, in
the copies of the routine without the wait loop.
-/

namespace GpuLibc

variable {v : Variant} {r : Ring} {s : State} {n : ℕ}

/-- What a call does to the shared memory from the claim to the store of the tail. -/
def Shared.perror (r : Ring) (msg : Message) (sh : Shared) : Shared :=
  { sh with sqTailCache := sh.sqTailCache + 1 }
    |>.memsetBuff r sh.sqTailCache
    |>.memcpyBuff r sh.sqTailCache msg
    |>.storeSqe r sh.sqTailCache .zero
    |>.storeSqe r sh.sqTailCache (r.sqe sh.sqTailCache msg)
    |>.storeArray r sh.sqTailCache
    |>.storeTail sh.sqTailCache

theorem Shared.perror_sringArray (r : Ring) (msg : Message) (sh : Shared) :
    (sh.perror r msg).sringArray =
      Function.update sh.sringArray (r.idx sh.sqTailCache).toNat (r.idx sh.sqTailCache) := rfl

theorem Shared.perror_sqes (r : Ring) (msg : Message) (sh : Shared) :
    (sh.perror r msg).sqes =
      Function.update sh.sqes (r.idx sh.sqTailCache).toNat (r.sqe sh.sqTailCache msg) :=
  Function.update_idem ..

/-- The words after a call: its ticket is consumed and published, and the head is as it was. -/
theorem Shared.perror_words (r : Ring) (msg : Message) (sh : Shared) :
    (sh.perror r msg).sqTailCache = sh.sqTailCache + 1 ∧
      (sh.perror r msg).sringTail = sh.sqTailCache + 1 ∧
      (sh.perror r msg).sringHead = sh.sringHead :=
  ⟨rfl, rfl, rfl⟩

/-- Clearing the flag word moves no counter. -/
theorem Shared.clearFlags_words (sh : Shared) :
    sh.clearFlags.sqTailCache = sh.sqTailCache ∧ sh.clearFlags.sringTail = sh.sringTail ∧
      sh.clearFlags.sringHead = sh.sringHead := by
  rw [Shared.clearFlags]
  split <;> exact ⟨rfl, rfl, rfl⟩

/-- A step of the call that claimed last. -/
theorem step_last {l : List Call} {c c' : Call} {sh' : Shared} (hn : n = l.length)
    (hcalls : s.calls = l ++ [c]) (hc : c.step v r s.shared = some (sh', c')) :
    (system v r).step s (.call n) = some { s with shared := sh', calls := l ++ [c'] } := by
  show (s.calls[n]?.bind fun c => (c.step v r s.shared).map fun p =>
    { s with shared := p.1, calls := s.calls.set n p.2 }) = _
  rw [hcalls, getElem?_concat_self hn.symm, Option.bind_some, hc, Option.map_some,
    set_concat_self hn.symm]

/-- The steps of an undisturbed call up to the store of the tail. -/
theorem run_perror (hv : v ≠ .gpuSvmDemo) (r : Ring) (s : State) (msg : Message) :
    (system v r).run s (.claim msg :: List.replicate 6 (.call s.calls.length)) =
      some { s with
        shared := s.shared.perror r msg
        calls := s.calls ++ [{ msg, tail := s.shared.sqTailCache, phase := v.afterPublish }] } := by
  have hclaim : (system v r).step s (.claim msg) =
      some { s with
        shared := { s.shared with sqTailCache := s.shared.sqTailCache + 1 }
        calls := s.calls ++ [{ msg, tail := s.shared.sqTailCache, phase := .memsetBuff }] } := by
    cases v <;> first | rfl | exact absurd rfl hv
  simp only [Machine.run, List.replicate_succ, List.replicate_zero]
  rw [hclaim, Option.bind_some]
  -- each phase in turn, from the first write to the window to the store of the tail
  iterate 6 rw [step_last rfl rfl rfl, Option.bind_some]
  rfl

/-- In `io_uring_gpu_no_poll` one more step tests and clears the flag word. -/
theorem run_perror_noPoll (r : Ring) (s : State) (msg : Message) :
    (system .ioUringGpuNoPoll r).run s (.claim msg :: List.replicate 7 (.call s.calls.length)) =
      some { s with
        shared := (s.shared.perror r msg).clearFlags
        calls := s.calls ++ [{ msg, tail := s.shared.sqTailCache, phase := .returned }] } := by
  have hpublish := run_perror (v := .ioUringGpuNoPoll) (by decide) r s msg
  rw [List.replicate_succ', ← List.cons_append, Machine.run_concat hpublish]
  exact step_last rfl rfl rfl

end GpuLibc
