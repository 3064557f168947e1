import GpuLibc.Hsa.Discovery

/-!
# Device discovery in the experiments

The beginnings of `main` in `svm_target_edit_buffer`, `svm_migration_fg` and `svm_migration_cg`.
The first one searches as `setup_uring` does, the second one for two more pools. The last one has
its own forms of the searches: the one for an agent ends at the first agent of the device type, the
one for a pool asks for the flags of every pool, and both hand on the status of a query that fails.

## Main results

* `getAgentCg_eq_some_iff`, `getAgentMemoryPoolCg_accepted_iff`, `getAgentMemoryPoolCg_fst`: what
  the searches of `svm_migration_cg` find, in terms of those of `setup_uring`;
* `experimentDiscovery_iff`: when the experiments go on, and with which handles.
-/

namespace GpuLibc

open Iteration

/-- `handle_error` of an experiment, which returns or exits with a text: `unknown` is the one for a
status without a description, and `report` puts line and description together. -/
def Hsa.handleErrorWith (h : Hsa) (unknown : String) (report : ℕ → Option String → String)
    (code : HsaStatus) (line : ℕ) : Except String Unit :=
  if code = .success ∨ code = .infoBreak then .ok ()
  else .error (report line (if (h.statusString code).1 ≠ .success then some unknown
    else (h.statusString code).2))

/-- The text of the migration benchmarks. -/
def migrationReport (line : ℕ) (desc : Option String) : String :=
  "svm_api_test.cpp:" ++ toString line ++ " " ++ desc.getD "(null)" ++ "\n"

/-- `handle_error` of `svm_migration_fg`. -/
def Hsa.handleErrorFg (h : Hsa) : HsaStatus → ℕ → Except String Unit :=
  h.handleErrorWith "Unknown" migrationReport

/-- `handle_error` of `svm_migration_cg`. -/
def Hsa.handleErrorCg (h : Hsa) : HsaStatus → ℕ → Except String Unit :=
  h.handleErrorWith "Unknown error" migrationReport

/-- `handle_error` of `svm_target_edit_buffer`. -/
def Hsa.handleErrorTarget (h : Hsa) : HsaStatus → ℕ → Except String Unit :=
  h.handleErrorWith "Unknown" fun line desc =>
    "HSA error at " ++ toString line ++ ": " ++ desc.getD "" ++ "\n"

/-- `if (hsa_status_t err = …) handle_error(err, line)` in `svm_migration_cg`. -/
def Hsa.checkCg (h : Hsa) (err : HsaStatus) (line : ℕ) : Except String Unit :=
  if err ≠ .success then h.handleErrorCg err line else .ok ()

/-- The callback of `get_agent_memory_pool<flag>` in `svm_migration_cg`. -/
def getAgentMemoryPoolCgCallback (flag : PoolFlag) (v : PoolVisit) (out : Option Pool) :
    Option Pool × HsaStatus :=
  if v.segmentQuery ≠ .success then (out, v.segmentQuery)
  -- the flags are asked for before the segment is looked at
  else if v.flagsQuery ≠ .success then (out, v.flagsQuery)
  else if v.pool.segment ≠ .global then (out, .success)
  else (if v.pool.flags &&& flag.bit ≠ 0 then some v.pool else out, .success)

/-- `get_agent_memory_pool<flag>` in `svm_migration_cg`. The handles of that program are not
initialised; `wild` is what comes of a search with one that was never stored. -/
def Hsa.getAgentMemoryPoolCg (h : Hsa) (wild : Option Pool × HsaStatus) (flag : PoolFlag)
    (agent : Option Agent) (out : Option Pool) : Option Pool × HsaStatus :=
  match agent with
  | none => wild
  | some a => iterate .success (getAgentMemoryPoolCgCallback flag) (h.pools a) out

/-- `main` of `svm_target_edit_buffer` up to the discovery of the pool. -/
def Hsa.targetDiscovery (h : Hsa) :
    Except String (Option Agent × Option Agent × Option Pool) := do
  h.handleErrorTarget h.init 76
  let (gpu, gpuStatus) := getAgent .gpu h.agents none
  h.handleErrorTarget gpuStatus 78
  let (cpu, cpuStatus) := getAgent .cpu h.agents none
  h.handleErrorTarget cpuStatus 79
  let (fgPool, poolStatus) := h.getAgentMemoryPool .fineGrained cpu none
  h.handleErrorTarget poolStatus 82
  return (gpu, cpu, fgPool)

/-- The handles of `svm_migration_fg`; a null handle is `none`. -/
structure FgHandles where
  gpu : Option Agent
  cpu : Option Agent
  kernargsPool : Option Pool
  fgPool : Option Pool
  cgPool : Option Pool
deriving DecidableEq

/-- `main` of `svm_migration_fg` up to the discovery of the pools. -/
def Hsa.migrationFgDiscovery (h : Hsa) : Except String FgHandles := do
  let (gpu, gpuStatus) := getAgent .gpu h.agents none
  h.handleErrorFg gpuStatus 104
  let (cpu, cpuStatus) := getAgent .cpu h.agents none
  h.handleErrorFg cpuStatus 105
  let (kernargsPool, kernargsStatus) := h.getAgentMemoryPool .kernargInit cpu none
  h.handleErrorFg kernargsStatus 114
  let (fgPool, fgStatus) := h.getAgentMemoryPool .fineGrained cpu none
  h.handleErrorFg fgStatus 115
  let (cgPool, cgStatus) := h.getAgentMemoryPool .coarseGrained gpu none
  h.handleErrorFg cgStatus 116
  return { gpu, cpu, kernargsPool, fgPool, cgPool }

/-- `main` of `svm_migration_cg` up to the discovery of the pool, which is a fine-grained one. -/
def Hsa.migrationCgDiscovery (h : Hsa) (wild : Option Pool × HsaStatus) :
    Except String (Option Agent × Option Agent × Option Pool) := do
  let (devAgent, devStatus) := getAgentCg .gpu h.agents none
  h.checkCg devStatus 154
  let (hostAgent, hostStatus) := getAgentCg .cpu h.agents none
  h.checkCg hostStatus 156
  let (coarsegrainedPool, poolStatus) := h.getAgentMemoryPoolCg wild .fineGrained hostAgent none
  h.checkCg poolStatus 162
  return (devAgent, hostAgent, coarsegrainedPool)

/-- What the pool search of `svm_migration_cg` answers for a pool. -/
def PoolVisit.statusCg (v : PoolVisit) : HsaStatus :=
  if v.segmentQuery ≠ .success then v.segmentQuery else v.flagsQuery

/-- The first agent of the device type, whatever it supports. -/
def Hsa.firstOfType (h : Hsa) (dt : DeviceType) : Option Agent :=
  (h.agents.map AgentVisit.agent).find? fun a => a.device = dt

/-- The last pool of the agent that is in the global segment and has the flag. -/
def Hsa.lastPool (h : Hsa) (fl : PoolFlag) (a : Agent) : Option Pool :=
  ((h.pools a).reverse.find? fun v => v.pool.Matches fl).map PoolVisit.pool

/-- No query on a pool of the agent answers with the status that ends an iteration. -/
def Hsa.NoBreak (h : Hsa) (a : Agent) : Prop :=
  ∀ v ∈ h.pools a, v.segmentQuery ≠ .infoBreak ∧ v.flagsQuery ≠ .infoBreak

/-- The flags of every pool of the agent can be asked for. -/
def Hsa.FlagsAnswered (h : Hsa) (a : Agent) : Prop := ∀ v ∈ h.pools a, v.flagsQuery = .success

variable {h : Hsa} {dt : DeviceType} {fl : PoolFlag} {a : Agent}

/-! ## The checks -/

theorem Hsa.handleErrorWith_eq_ok_iff {unknown : String} {report : ℕ → Option String → String}
    (code : HsaStatus) (line : ℕ) :
    h.handleErrorWith unknown report code line = .ok () ↔ code.Accepted := by
  rw [Hsa.handleErrorWith]
  by_cases hcode : code = .success ∨ code = .infoBreak
  · rw [if_pos hcode]
    exact ⟨fun _ => hcode, fun _ => rfl⟩
  · rw [if_neg hcode]
    exact ⟨(fun hok => nomatch hok), fun haccepted => absurd haccepted hcode⟩

theorem Hsa.handleErrorFg_eq_ok_iff (code : HsaStatus) (line : ℕ) :
    h.handleErrorFg code line = .ok () ↔ code.Accepted :=
  Hsa.handleErrorWith_eq_ok_iff code line

theorem Hsa.handleErrorTarget_eq_ok_iff (code : HsaStatus) (line : ℕ) :
    h.handleErrorTarget code line = .ok () ↔ code.Accepted :=
  Hsa.handleErrorWith_eq_ok_iff code line

/-- The test in front of `handle_error` changes nothing. -/
theorem Hsa.checkCg_eq_ok_iff (err : HsaStatus) (line : ℕ) :
    h.checkCg err line = .ok () ↔ err.Accepted := by
  rw [Hsa.checkCg]
  by_cases herr : err = .success
  · rw [if_neg (not_not.mpr herr)]
    exact ⟨fun _ => .inl herr, fun _ => rfl⟩
  · rw [if_pos herr]
    exact Hsa.handleErrorWith_eq_ok_iff err line

/-- What follows a check runs exactly if the check passes. -/
theorem check_bind_eq_ok_iff {α : Type} {check : Except String Unit} {passes : Prop}
    (hcheck : check = .ok () ↔ passes) (k : Unit → Except String α) (r : α) :
    (check >>= k) = .ok r ↔ passes ∧ k () = .ok r := by
  rw [← hcheck]
  cases check with
  | ok => exact ⟨fun hk => ⟨rfl, hk⟩, And.right⟩
  | error e => exact ⟨(fun hk => nomatch hk), fun hk => nomatch hk.1⟩

/-! ## The search for an agent in `svm_migration_cg` -/

/-- What the first form stops at, the second one stops at as well. -/
theorem AgentVisit.stopsCg_of_stops {v : AgentVisit} (hv : v.stops dt = true) :
    v.stopsCg dt = true := by
  rw [AgentVisit.stopsCg, decide_eq_true_iff]
  obtain (hdevice | ⟨rfl, hgpu, -⟩) | hmatches := AgentVisit.stops_iff.mp hv
  · exact .inl hdevice
  · exact .inr hgpu
  · exact .inr hmatches.1

/-- The callback of the second form stores an agent that matches if no query fails on it. -/
theorem getAgentCgCallback_eq_some_iff {v : AgentVisit} :
    (getAgentCgCallback dt v none).1 = some a ↔
      ¬ v.QueryFails dt ∧ v.agent.Matches dt ∧ v.agent = a := by
  simp only [getAgentCgCallback, AgentVisit.QueryFails, Agent.Matches, Agent.Dispatches]
  by_cases hdevice : v.deviceQuery = .success
  · by_cases htype : v.agent.device = dt
    · by_cases hgpu : dt = .gpu <;> by_cases hfeature : v.featureQuery = .success <;>
        by_cases hdispatch : v.agent.feature &&& kernelDispatch = 0 <;>
        simp [hdevice, htype, hgpu, hfeature, hdispatch]
    · simp [hdevice, htype]
  · simp [hdevice]

/-- When the callback stores something, it ends the iteration with the status for that. -/
theorem getAgentCgCallback_snd_of_eq_some {v : AgentVisit}
    (hstored : (getAgentCgCallback dt v none).1 = some a) :
    (getAgentCgCallback dt v none).2 = .infoBreak := by
  obtain ⟨hfails, hmatches, -⟩ := getAgentCgCallback_eq_some_iff.mp hstored
  rw [AgentVisit.QueryFails, not_or, not_not] at hfails
  rw [getAgentCgCallback, if_neg (not_not.mpr hfails.1), if_pos hmatches.1]
  by_cases hgpu : v.agent.device = .gpu
  · have hfeature : ¬ v.featureQuery ≠ .success := fun hne =>
      hfails.2 ⟨hmatches.1.symm.trans hgpu, hgpu, hne⟩
    rw [if_pos hgpu, if_neg hfeature]
  · rw [if_neg hgpu]

theorem getAgentCg_eq (dt : DeviceType) (visits : List AgentVisit) (out : Option Agent) :
    getAgentCg dt visits out =
      ((visits.find? (AgentVisit.stopsCg dt)).map fun v => getAgentCgCallback dt v out).getD
        (out, .success) := by
  apply iterate_eq_find?
  · intro v out hv
    exact getAgentCgCallback_of_not_stops hv
  · intro v out hv
    exact getAgentCgCallback_snd_ne hv

/-- The second form reaches the first agent of the device type, unless the first form fails. -/
theorem find?_stopsCg_of_not_fails {v : AgentVisit} (hfails : ¬ h.AgentSearchFails dt)
    (hfirst : h.agents.find? (fun w => decide (w.agent.device = dt)) = some v) :
    h.agents.find? (AgentVisit.stopsCg dt) = some v := by
  obtain ⟨hdevice, pre, post, hagents, hpre⟩ := List.find?_eq_some_iff_append.mp hfirst
  have hother (w : AgentVisit) (hw : w ∈ pre) : w.agent.device ≠ dt := by simpa using hpre w hw
  refine List.find?_eq_some_iff_append.mpr ⟨?_, pre, post, hagents, fun w hw => ?_⟩
  · rw [AgentVisit.stopsCg, decide_eq_true_iff]
    exact .inr (of_decide_eq_true hdevice)
  · rw [AgentVisit.stopsCg, Bool.not_eq_true', decide_eq_false_iff_not, not_or]
    refine ⟨fun hquery => ?_, hother w hw⟩
    -- the first form would stop in `pre`, where nothing matches
    cases hstop : pre.find? (AgentVisit.stops dt) with
    | none =>
      rw [List.find?_eq_none] at hstop
      exact hstop w hw (AgentVisit.stops_iff.mpr (.inl (.inl hquery)))
    | some u =>
      have hu : u.QueryFails dt :=
        (AgentVisit.stops_iff.mp (List.find?_some hstop)).resolve_right fun hmatches =>
          hother u (List.mem_of_find?_eq_some hstop) hmatches.1
      refine hfails ⟨u, ?_, hu⟩
      rw [hagents, List.find?_append, hstop, Option.some_or]

/-- When the second form stops at an agent that matches, the first form does so, too. -/
theorem find?_stops_of_stopsCg {v : AgentVisit}
    (hstop : h.agents.find? (AgentVisit.stopsCg dt) = some v) (hmatches : v.agent.Matches dt) :
    h.agents.find? (AgentVisit.stops dt) = some v :=
  find?_eq_some_of_imp (fun _ hw => AgentVisit.stopsCg_of_stops hw) hstop
    (AgentVisit.stops_iff.mpr (.inr hmatches))

theorem firstOfType_of_stopsCg {v : AgentVisit}
    (hstop : h.agents.find? (AgentVisit.stopsCg dt) = some v) (hdevice : v.agent.device = dt) :
    h.firstOfType dt = some v.agent := by
  have hfirst : h.agents.find? (fun w => decide (w.agent.device = dt)) = some v := by
    refine find?_eq_some_of_imp (fun w hw => ?_) hstop (by simpa using hdevice)
    rw [AgentVisit.stopsCg, decide_eq_true_iff]
    exact .inr (of_decide_eq_true hw)
  rw [Hsa.firstOfType, List.find?_map]
  exact congrArg (Option.map AgentVisit.agent) hfirst

/-- The second form finds what the first one finds exactly if that is the first agent of the device
type. -/
theorem getAgentCg_eq_some_iff :
    (getAgentCg dt h.agents none).1 = some a ↔
      ¬ h.AgentSearchFails dt ∧ h.firstAgent dt = some a ∧ h.firstOfType dt = some a := by
  rw [getAgentCg_eq]
  constructor
  · intro hstored
    cases hstop : h.agents.find? (AgentVisit.stopsCg dt) with
    | none => simp [hstop] at hstored
    | some v =>
      rw [hstop, Option.map_some, Option.getD_some, getAgentCgCallback_eq_some_iff] at hstored
      obtain ⟨hquery, hmatches, rfl⟩ := hstored
      have hstops := find?_stops_of_stopsCg hstop hmatches
      refine ⟨?_, firstAgent_of_stops hstops hmatches, firstOfType_of_stopsCg hstop hmatches.1⟩
      rintro ⟨w, hw, hfails⟩
      rw [hstops, Option.some_inj] at hw
      exact hquery (hw ▸ hfails)
  · rintro ⟨hfails, hfirst, htype⟩
    have hmatches : a.Matches dt := by
      rw [Hsa.firstAgent] at hfirst
      simpa using List.find?_some hfirst
    rw [Hsa.firstOfType, List.find?_map, Option.map_eq_some_iff] at htype
    obtain ⟨v, hv, rfl⟩ := htype
    have hstop := find?_stopsCg_of_not_fails hfails hv
    rw [hstop, Option.map_some, Option.getD_some, getAgentCgCallback_eq_some_iff]
    have hquery : ¬ v.QueryFails dt := fun hquery =>
      hfails ⟨v, find?_stops_of_stopsCg hstop hmatches, hquery⟩
    exact ⟨hquery, hmatches, rfl⟩

/-! ## The search for a pool in `svm_migration_cg` -/

theorem getAgentMemoryPoolCgCallback_eq (flag : PoolFlag) (v : PoolVisit) (out : Option Pool) :
    getAgentMemoryPoolCgCallback flag v out =
      (if v.statusCg = .success ∧ v.pool.Matches flag then some v.pool else out, v.statusCg) := by
  simp only [getAgentMemoryPoolCgCallback, PoolVisit.statusCg, Pool.Matches]
  by_cases hsegment : v.segmentQuery = .success
  · by_cases hflags : v.flagsQuery = .success <;> by_cases hglobal : v.pool.segment = .global <;>
      simp [hsegment, hflags, hglobal]
  · simp [hsegment]

theorem PoolVisit.statusCg_eq_success_iff {v : PoolVisit} :
    v.statusCg = .success ↔ ¬ v.QueryFails ∧ v.flagsQuery = .success := by
  rw [PoolVisit.statusCg, PoolVisit.QueryFails]
  by_cases hsegment : v.segmentQuery = .success
  · rw [if_neg (not_not.mpr hsegment), not_or, not_not, not_and, not_not]
    exact ⟨fun hflags => ⟨⟨hsegment, fun _ => hflags⟩, hflags⟩, And.right⟩
  · rw [if_pos hsegment]
    exact ⟨fun hsuccess => absurd hsuccess hsegment, fun hquery => absurd (.inl hsegment) hquery.1⟩

/-- Unless a query breaks it off, the search is accepted if no query on a pool fails. -/
theorem getAgentMemoryPoolCg_accepted_iff (hbreak : h.NoBreak a) (wild : Option Pool × HsaStatus)
    (out : Option Pool) :
    (h.getAgentMemoryPoolCg wild fl (some a) out).2.Accepted ↔
      ¬ h.PoolSearchFails a ∧ h.FlagsAnswered a := by
  have hstatus (v : PoolVisit) (o : Option Pool) :
      (getAgentMemoryPoolCgCallback fl v o).2 = v.statusCg := by
    rw [getAgentMemoryPoolCgCallback_eq]
  have hall : (∀ v ∈ h.pools a, v.statusCg = .success) ↔
      ¬ h.PoolSearchFails a ∧ h.FlagsAnswered a := by
    simp only [PoolVisit.statusCg_eq_success_iff, Hsa.PoolSearchFails, Hsa.FlagsAnswered,
      not_exists, not_and]
    exact forall₂_and
  rw [← hall, ← iterate_snd_eq_ok_iff hstatus (s := out), Hsa.getAgentMemoryPoolCg]
  refine or_iff_left fun hend => ?_
  -- the status comes from the search itself or from a query
  obtain hok | ⟨v, hv, o, hv'⟩ := iterate_snd_eq_ok_or .success (getAgentMemoryPoolCgCallback fl)
    (h.pools a) out
  · rw [hend] at hok
    simp at hok
  · rw [hend, hstatus, PoolVisit.statusCg] at hv'
    obtain ⟨hsegment, hflags⟩ := hbreak v hv
    by_cases hfails : v.segmentQuery ≠ .success
    · rw [if_pos hfails] at hv'
      exact hsegment hv'.symm
    · rw [if_neg hfails] at hv'
      exact hflags hv'.symm

/-- Then it stores the pool that `setup_uring` would. -/
theorem getAgentMemoryPoolCg_fst (hfails : ¬ h.PoolSearchFails a) (hflags : h.FlagsAnswered a)
    (wild : Option Pool × HsaStatus) :
    (h.getAgentMemoryPoolCg wild fl (some a) none).1 = h.lastPool fl a := by
  have hcallback : ∀ v ∈ h.pools a, ∀ out, getAgentMemoryPoolCgCallback fl v out =
      (if decide (v.pool.Matches fl) then some v.pool else out, .success) := by
    intro v hv out
    have hsuccess : v.statusCg = .success :=
      PoolVisit.statusCg_eq_success_iff.mpr ⟨fun hquery => hfails ⟨v, hv, hquery⟩, hflags v hv⟩
    rw [getAgentMemoryPoolCgCallback_eq, hsuccess]
    simp only [true_and, decide_eq_true_eq]
  rw [Hsa.getAgentMemoryPoolCg, iterate_eq_last hcallback, Option.or_none]
  rfl

theorem getAgentMemoryPool_fst (hfails : ¬ h.PoolSearchFails a) :
    (h.getAgentMemoryPool fl (some a) none).1 = h.lastPool fl a := by
  rw [getAgentMemoryPool_of_not_fails hfails, Option.or_none]
  rfl

/-! ## The programs -/

/-- `svm_target_edit_buffer` goes on exactly when `setup_uring` does, with the same handles. -/
theorem targetDiscovery_eq_ok_iff (r : Option Agent × Option Agent × Option Pool) :
    h.targetDiscovery = .ok r ↔ h.setupUringDiscovery = .ok r := by
  rw [setupUringDiscovery_eq_ok_iff, Hsa.targetDiscovery,
    check_bind_eq_ok_iff (Hsa.handleErrorTarget_eq_ok_iff _ _)]
  refine and_congr_right fun _ => ?_
  dsimp only
  rw [check_bind_eq_ok_iff (Hsa.handleErrorTarget_eq_ok_iff _ _), getAgent_accepted_iff]
  refine and_congr_right fun hgpu => ?_
  rw [check_bind_eq_ok_iff (Hsa.handleErrorTarget_eq_ok_iff _ _), getAgent_accepted_iff]
  refine and_congr_right fun hcpu => ?_
  rw [getAgent_fst_of_not_fails hgpu, getAgent_fst_of_not_fails hcpu,
    check_bind_eq_ok_iff (Hsa.handleErrorTarget_eq_ok_iff _ _), getAgentMemoryPool_accepted_iff]
  refine and_congr_right fun _ => ?_
  exact ⟨Except.ok.inj, congrArg Except.ok⟩

/-- What `setup_uring` has found when it goes on without a null handle. -/
theorem setupUringDiscovery_eq_some_iff (g c : Agent) (p : Pool) :
    h.setupUringDiscovery = .ok (some g, some c, some p) ↔
      h.init.Accepted ∧ (¬ h.AgentSearchFails .gpu ∧ h.firstAgent .gpu = some g) ∧
        (¬ h.AgentSearchFails .cpu ∧ h.firstAgent .cpu = some c) ∧
        ¬ h.PoolSearchFails c ∧ h.lastPool .fineGrained c = some p := by
  rw [setupUringDiscovery_eq_ok_iff]
  constructor
  · rintro ⟨hinit, hgpu, hcpu, hhandle, heq⟩
    obtain ⟨hg, hc, hp⟩ : _ = some g ∧ _ = some c ∧ _ = some p := by simpa using heq
    rw [hc] at hhandle hp
    rw [getAgentMemoryPool_fst hhandle] at hp
    exact ⟨hinit, ⟨hgpu, hg⟩, ⟨hcpu, hc⟩, hhandle, hp⟩
  · rintro ⟨hinit, ⟨hgpu, hg⟩, ⟨hcpu, hc⟩, hpool, hp⟩
    rw [hg, hc, getAgentMemoryPool_fst hpool, hp]
    exact ⟨hinit, hgpu, hcpu, hpool, rfl⟩

/-- What `svm_migration_fg` has found when it goes on without a null handle. -/
theorem migrationFgDiscovery_eq_some_iff (g c : Agent) (k p q : Pool) :
    h.migrationFgDiscovery = .ok ⟨some g, some c, some k, some p, some q⟩ ↔
      (¬ h.AgentSearchFails .gpu ∧ h.firstAgent .gpu = some g) ∧
        (¬ h.AgentSearchFails .cpu ∧ h.firstAgent .cpu = some c) ∧
        (¬ h.PoolSearchFails c ∧ h.lastPool .kernargInit c = some k ∧
          h.lastPool .fineGrained c = some p) ∧
        ¬ h.PoolSearchFails g ∧ h.lastPool .coarseGrained g = some q := by
  rw [Hsa.migrationFgDiscovery]
  dsimp only
  rw [check_bind_eq_ok_iff (Hsa.handleErrorFg_eq_ok_iff _ _), getAgent_accepted_iff,
    check_bind_eq_ok_iff (Hsa.handleErrorFg_eq_ok_iff _ _), getAgent_accepted_iff,
    check_bind_eq_ok_iff (Hsa.handleErrorFg_eq_ok_iff _ _), getAgentMemoryPool_accepted_iff,
    check_bind_eq_ok_iff (Hsa.handleErrorFg_eq_ok_iff _ _), getAgentMemoryPool_accepted_iff,
    check_bind_eq_ok_iff (Hsa.handleErrorFg_eq_ok_iff _ _), getAgentMemoryPool_accepted_iff]
  constructor
  · rintro ⟨hgpu, hcpu, hhandle, -, hhandle', heq⟩
    rw [getAgent_fst_of_not_fails hgpu] at hhandle' heq
    rw [getAgent_fst_of_not_fails hcpu] at hhandle heq
    obtain ⟨hg, hc, hk, hp, hq⟩ :
        _ = some g ∧ _ = some c ∧ _ = some k ∧ _ = some p ∧ _ = some q := by
      simpa using Except.ok.inj heq
    rw [hc] at hhandle hk hp
    rw [hg] at hhandle' hq
    rw [getAgentMemoryPool_fst hhandle] at hk hp
    rw [getAgentMemoryPool_fst hhandle'] at hq
    exact ⟨⟨hgpu, hg⟩, ⟨hcpu, hc⟩, ⟨hhandle, hk, hp⟩, hhandle', hq⟩
  · rintro ⟨⟨hgpu, hg⟩, ⟨hcpu, hc⟩, ⟨hpool, hk, hp⟩, hpool', hq⟩
    rw [getAgent_fst_of_not_fails hgpu, getAgent_fst_of_not_fails hcpu, hg, hc,
      getAgentMemoryPool_fst hpool, getAgentMemoryPool_fst hpool, getAgentMemoryPool_fst hpool',
      hk, hp, hq]
    exact ⟨hgpu, hcpu, hpool, hpool, hpool', rfl⟩

/-- An agent search of `svm_migration_cg` that stores something passes its check. -/
theorem getAgentCg_accepted_of_eq_some (hstored : (getAgentCg dt h.agents none).1 = some a) :
    (getAgentCg dt h.agents none).2.Accepted := by
  rw [getAgentCg_eq] at hstored ⊢
  cases hstop : h.agents.find? (AgentVisit.stopsCg dt) with
  | none => simp [hstop] at hstored
  | some v =>
    rw [hstop, Option.map_some, Option.getD_some] at hstored
    rw [Option.map_some, Option.getD_some]
    exact .inr (getAgentCgCallback_snd_of_eq_some hstored)

/-- What `svm_migration_cg` has found when it goes on with handles that were stored. -/
theorem migrationCgDiscovery_eq_some_iff (wild : Option Pool × HsaStatus) (g c : Agent) (p : Pool)
    (hbreak : h.NoBreak c) :
    h.migrationCgDiscovery wild = .ok (some g, some c, some p) ↔
      (getAgentCg .gpu h.agents none).1 = some g ∧ (getAgentCg .cpu h.agents none).1 = some c ∧
        (¬ h.PoolSearchFails c ∧ h.FlagsAnswered c) ∧ h.lastPool .fineGrained c = some p := by
  rw [Hsa.migrationCgDiscovery]
  dsimp only
  rw [check_bind_eq_ok_iff (Hsa.checkCg_eq_ok_iff _ _),
    check_bind_eq_ok_iff (Hsa.checkCg_eq_ok_iff _ _),
    check_bind_eq_ok_iff (Hsa.checkCg_eq_ok_iff _ _)]
  constructor
  · rintro ⟨-, -, haccepted, heq⟩
    obtain ⟨hg, hc, hp⟩ : _ = some g ∧ _ = some c ∧ _ = some p := by
      simpa using Except.ok.inj heq
    rw [hc] at haccepted hp
    have hpool := (getAgentMemoryPoolCg_accepted_iff hbreak wild none).mp haccepted
    rw [getAgentMemoryPoolCg_fst hpool.1 hpool.2] at hp
    exact ⟨hg, hc, hpool, hp⟩
  · rintro ⟨hg, hc, hpool, hp⟩
    have haccepted : (h.getAgentMemoryPoolCg wild .fineGrained (some c) none).2.Accepted :=
      (getAgentMemoryPoolCg_accepted_iff hbreak wild none).mpr hpool
    refine ⟨getAgentCg_accepted_of_eq_some hg, getAgentCg_accepted_of_eq_some hc, ?_, ?_⟩
    · rwa [hc]
    · rw [hg, hc, getAgentMemoryPoolCg_fst hpool.1 hpool.2, hp]
      rfl

/-- A CPU is a CPU: the search for one does not ask for features. -/
theorem firstOfType_cpu : h.firstOfType .cpu = h.firstAgent .cpu := by
  rw [Hsa.firstOfType, Hsa.firstAgent]
  congr 1
  ext a
  simp [Agent.Matches]

/-- On every machine whose runtime is initialised and breaks no iteration off, in terms of what
`setup_uring` finds without a null handle:

* `svm_target_edit_buffer` finds the same;
* `svm_migration_fg` finds the same GPU, CPU and fine-grained pool, and goes on if the other two
  pools are there and can be searched for;
* `svm_migration_cg` finds the same GPU, CPU and pool, and goes on if no GPU without kernel dispatch
  comes first and the flags of every pool of the CPU can be asked for. -/
theorem experimentDiscovery_iff (hinit : h.init.Accepted) (hbreak : ∀ a, h.NoBreak a)
    (wild : Option Pool × HsaStatus) (g c : Agent) (p : Pool) :
    (h.targetDiscovery = .ok (some g, some c, some p) ↔
      h.setupUringDiscovery = .ok (some g, some c, some p)) ∧
    (∀ k q, h.migrationFgDiscovery = .ok ⟨some g, some c, some k, some p, some q⟩ ↔
      h.setupUringDiscovery = .ok (some g, some c, some p) ∧ h.lastPool .kernargInit c = some k ∧
        ¬ h.PoolSearchFails g ∧ h.lastPool .coarseGrained g = some q) ∧
    (h.migrationCgDiscovery wild = .ok (some g, some c, some p) ↔
      h.setupUringDiscovery = .ok (some g, some c, some p) ∧ h.firstOfType .gpu = some g ∧
        h.FlagsAnswered c) := by
  refine ⟨targetDiscovery_eq_ok_iff _, fun k q => ?_, ?_⟩
  · rw [migrationFgDiscovery_eq_some_iff, setupUringDiscovery_eq_some_iff, and_iff_right hinit]
    tauto
  · rw [migrationCgDiscovery_eq_some_iff wild g c p (hbreak c), setupUringDiscovery_eq_some_iff,
      and_iff_right hinit, getAgentCg_eq_some_iff, getAgentCg_eq_some_iff, firstOfType_cpu]
    tauto

/-- A machine with a CPU that has a pool for host memory and kernel arguments, and a GPU with memory
of its own. -/
def cpuAndGpu : Hsa where
  init := .success
  agents := [{ handle := 1, device := .cpu, feature := 0 : Agent }.queried,
    { handle := 2, device := .gpu, feature := 1 : Agent }.queried]
  pools a :=
    [{ pool := { handle := a.handle + 2
                 segment := .global
                 flags := if a.device = .gpu then 4 else 3 }
       segmentQuery := .success
       flagsQuery := .success }]
  nullAgent := .other 4100
  statusString _ := (.success, none)

/-- On `cpuAndGpu` all the experiments go on. -/
theorem experimentDiscovery_cpuAndGpu :
    let gpu : Agent := { handle := 2, device := .gpu, feature := 1 }
    let cpu : Agent := { handle := 1, device := .cpu, feature := 0 }
    let host : Pool := { handle := 3, segment := .global, flags := 3 }
    let device : Pool := { handle := 4, segment := .global, flags := 4 }
    cpuAndGpu.targetDiscovery = .ok (some gpu, some cpu, some host) ∧
      cpuAndGpu.migrationFgDiscovery =
        .ok ⟨some gpu, some cpu, some host, some host, some device⟩ ∧
      cpuAndGpu.migrationCgDiscovery (none, .error) = .ok (some gpu, some cpu, some host) := by
  intro gpu cpu host device
  have hbreak (a : Agent) : cpuAndGpu.NoBreak a := by simp [Hsa.NoBreak, cpuAndGpu]
  obtain ⟨htarget, hfg, hcg⟩ :=
    experimentDiscovery_iff (h := cpuAndGpu) (.inl rfl) hbreak (none, .error) gpu cpu host
  have hsetup : cpuAndGpu.setupUringDiscovery = .ok (some gpu, some cpu, some host) := rfl
  have hpool : ¬ cpuAndGpu.PoolSearchFails gpu := by
    simp [Hsa.PoolSearchFails, PoolVisit.QueryFails, cpuAndGpu]
  have hflags : cpuAndGpu.FlagsAnswered cpu := by simp [Hsa.FlagsAnswered, cpuAndGpu]
  exact ⟨htarget.mpr hsetup, (hfg host device).mpr ⟨hsetup, by decide, hpool, by decide⟩,
    hcg.mpr ⟨hsetup, rfl, hflags⟩⟩

end GpuLibc
