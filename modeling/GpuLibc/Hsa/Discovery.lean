import GpuLibc.Hsa.Agents

/-!
# Device discovery

The beginning of `setup_uring`: the search for a GPU agent, a CPU agent and a fine-grained memory
pool, each checked by `handle_error`. That function accepts the status with which a search ends
that has found nothing, so a handle can still be null afterwards.

## Main results

* `getAgent_of_not_fails`, `getAgent_of_fails`: what `get_agent` returns;
* `getAgentMemoryPool_of_not_fails`, `getAgentMemoryPool_of_fails`: the same for
  `get_agent_memory_pool`;
* `discovery_sound_iff`: exactly when the searches and the setup can be relied on.
-/

namespace GpuLibc

open Iteration

/-- `hsa_amd_segment_t`. -/
inductive Segment
  | global
  | readonly
  | privateSegment
  | group
deriving DecidableEq

/-- `hsa_amd_memory_pool_global_flag_t`. -/
inductive PoolFlag
  | kernargInit
  | fineGrained
  | coarseGrained
  | extendedScopeFineGrained
deriving DecidableEq

/-- The bit of the flag. -/
def PoolFlag.bit : PoolFlag → BitVec 32
  | kernargInit => 1
  | fineGrained => 2
  | coarseGrained => 4
  | extendedScopeFineGrained => 8

/-- A memory pool: its handle and what the two queries ask for. -/
structure Pool where
  handle : ℕ
  segment : Segment
  flags : BitVec 32
deriving DecidableEq

/-- A memory pool as the callback meets it, with the status that each query returns. -/
structure PoolVisit where
  pool : Pool
  /-- The status of the query for `HSA_AMD_MEMORY_POOL_INFO_SEGMENT`. -/
  segmentQuery : HsaStatus
  /-- The status of the query for `HSA_AMD_MEMORY_POOL_INFO_GLOBAL_FLAGS`. -/
  flagsQuery : HsaStatus
deriving DecidableEq

/-- What the HSA runtime answers on one machine. -/
structure Hsa where
  /-- The status of `hsa_init`. -/
  init : HsaStatus
  /-- The agents, in the order of `hsa_iterate_agents`. -/
  agents : List AgentVisit
  /-- The pools of an agent, in the order of `hsa_amd_agent_iterate_memory_pools`. -/
  pools : Agent → List PoolVisit
  /-- The status of `hsa_amd_agent_iterate_memory_pools` for a null handle. -/
  nullAgent : HsaStatus
  /-- The status of `hsa_status_string` and the text it stores, if any. -/
  statusString : HsaStatus → HsaStatus × Option String

/-- `handle_error`, which returns or aborts with a text. -/
def Hsa.handleError (h : Hsa) (code : HsaStatus) (line : ℕ) : Except String Unit :=
  if code = .success ∨ code = .infoBreak then .ok ()
  else
    let desc := if (h.statusString code).1 ≠ .success then some "Unknown"
      else (h.statusString code).2
    .error ("HSA error:" ++ toString line ++ " " ++ desc.getD "" ++ "\n")

/-- The callback of `get_agent_memory_pool<FL>`; a null handle is `none`. -/
def getAgentMemoryPoolCallback (fl : PoolFlag) (v : PoolVisit) (out : Option Pool) :
    Option Pool × HsaStatus :=
  if v.segmentQuery ≠ .success then (out, .error)
  else if v.pool.segment ≠ .global then (out, .success)
  else if v.flagsQuery ≠ .success then (out, .error)
  -- the iteration goes on behind a pool that is stored
  else (if v.pool.flags &&& fl.bit ≠ 0 then some v.pool else out, .success)

/-- `get_agent_memory_pool<FL>`. -/
def Hsa.getAgentMemoryPool (h : Hsa) (fl : PoolFlag) (ag : Option Agent) (out : Option Pool) :
    Option Pool × HsaStatus :=
  match ag with
  | none => (out, h.nullAgent)
  | some a => iterate .success (getAgentMemoryPoolCallback fl) (h.pools a) out

/-- `setup_uring` up to the discovery of the pool: the handles it goes on with. -/
def Hsa.setupUringDiscovery (h : Hsa) :
    Except String (Option Agent × Option Agent × Option Pool) := do
  h.handleError h.init 140
  let (gpuAgent, gpuStatus) := getAgent .gpu h.agents none
  h.handleError gpuStatus 142
  let (cpuAgent, cpuStatus) := getAgent .cpu h.agents none
  h.handleError cpuStatus 144
  let (fgPool, poolStatus) := h.getAgentMemoryPool .fineGrained cpuAgent none
  h.handleError poolStatus 150
  return (gpuAgent, cpuAgent, fgPool)

/-! ## What the searches look for -/

/-- `handle_error` accepts the status. -/
def HsaStatus.Accepted (code : HsaStatus) : Prop := code = .success ∨ code = .infoBreak

instance (code : HsaStatus) : Decidable code.Accepted := inferInstanceAs (Decidable (_ ∨ _))

/-- The first agent of the device type, with kernel dispatch if that is the type of a GPU. -/
def Hsa.firstAgent (h : Hsa) (dt : DeviceType) : Option Agent :=
  (h.agents.map AgentVisit.agent).find? fun a => a.Matches dt

/-- A query fails before an agent of the device type is found. -/
def Hsa.AgentSearchFails (h : Hsa) (dt : DeviceType) : Prop :=
  ∃ v, h.agents.find? (AgentVisit.stops dt) = some v ∧ v.QueryFails dt

/-- The pool is in the global segment and has the flag. -/
def Pool.Matches (fl : PoolFlag) (p : Pool) : Prop :=
  p.segment = .global ∧ p.flags &&& fl.bit ≠ 0

instance (fl : PoolFlag) (p : Pool) : Decidable (p.Matches fl) :=
  inferInstanceAs (Decidable (_ ∧ _))

/-- A query of `get_agent_memory_pool` fails on the pool. -/
def PoolVisit.QueryFails (v : PoolVisit) : Prop :=
  v.segmentQuery ≠ .success ∨ v.pool.segment = .global ∧ v.flagsQuery ≠ .success

instance (v : PoolVisit) : Decidable v.QueryFails := inferInstanceAs (Decidable (_ ∨ _))

/-- A query fails on some pool of the agent. -/
def Hsa.PoolSearchFails (h : Hsa) (a : Agent) : Prop := ∃ v ∈ h.pools a, v.QueryFails

/-- Some pool of the agent is in the global segment and has the flag. -/
def Hsa.HasPool (h : Hsa) (fl : PoolFlag) (a : Agent) : Prop :=
  ∃ v ∈ h.pools a, v.pool.Matches fl

/-- The search for the pool on the agent that the handle designates does not pass
`handle_error`. -/
def Hsa.HandleSearchFails (h : Hsa) : Option Agent → Prop
  | none => ¬ h.nullAgent.Accepted
  | some a => h.PoolSearchFails a

/-- A call of the setup fails before its end. -/
def Hsa.DiscoveryFails (h : Hsa) : Prop :=
  ¬ h.init.Accepted ∨ h.AgentSearchFails .gpu ∨ h.AgentSearchFails .cpu ∨
    h.HandleSearchFails (h.firstAgent .cpu)

/-- The machine has all that the setup looks for. -/
def Hsa.Complete (h : Hsa) : Prop :=
  h.firstAgent .gpu ≠ none ∧ ∃ a, h.firstAgent .cpu = some a ∧ h.HasPool .fineGrained a

variable {h : Hsa} {dt : DeviceType} {fl : PoolFlag} {a : Agent}

theorem Hsa.handleError_eq_ok_iff (code : HsaStatus) (line : ℕ) :
    h.handleError code line = .ok () ↔ code.Accepted := by
  rw [Hsa.handleError]
  by_cases hcode : code = .success ∨ code = .infoBreak
  · rw [if_pos hcode]
    exact ⟨fun _ => hcode, fun _ => rfl⟩
  · rw [if_neg hcode]
    exact ⟨(fun hok => nomatch hok), fun haccepted => absurd haccepted hcode⟩

/-! ## The search for an agent -/

/-- The agent at which the first form stops without a failure is the first one that matches. -/
theorem firstAgent_of_stops {v : AgentVisit} (hstop : h.agents.find? (AgentVisit.stops dt) = some v)
    (hmatches : v.agent.Matches dt) : h.firstAgent dt = some v.agent := by
  -- an earlier agent that matches would have stopped the search
  have hfind : h.agents.find? (fun w => decide (w.agent.Matches dt)) = some v := by
    refine find?_eq_some_of_imp (fun w hw => ?_) hstop (by simpa using hmatches)
    exact AgentVisit.stops_iff.mpr (.inr (of_decide_eq_true hw))
  rw [Hsa.firstAgent, List.find?_map]
  exact congrArg (Option.map AgentVisit.agent) hfind

theorem firstAgent_of_not_stops (hstop : h.agents.find? (AgentVisit.stops dt) = none) :
    h.firstAgent dt = none := by
  rw [Hsa.firstAgent, List.find?_eq_none]
  rw [List.find?_eq_none] at hstop
  intro a ha hmatches
  obtain ⟨v, hv, rfl⟩ := List.mem_map.mp ha
  exact hstop v hv (AgentVisit.stops_iff.mpr (.inr (of_decide_eq_true hmatches)))

/-- Without a failure `get_agent` stores the first agent that matches, if there is one. -/
theorem getAgent_of_not_fails (hfails : ¬ h.AgentSearchFails dt) (out : Option Agent) :
    getAgent dt h.agents out =
      match h.firstAgent dt with
      | some a => (some a, .infoBreak)
      | none => (out, .success) := by
  rw [getAgent_eq]
  cases hstop : h.agents.find? (AgentVisit.stops dt) with
  | none =>
    rw [firstAgent_of_not_stops hstop]
    rfl
  | some v =>
    have hquery : ¬ v.QueryFails dt := fun hv => hfails ⟨v, hstop, hv⟩
    have hmatches : v.agent.Matches dt :=
      (AgentVisit.stops_iff.mp (List.find?_some hstop)).resolve_left hquery
    rw [firstAgent_of_stops hstop hmatches, Option.map_some, Option.getD_some,
      getAgentCallback_eq, if_neg hquery, if_pos hmatches]

theorem getAgent_of_fails (hfails : h.AgentSearchFails dt) (out : Option Agent) :
    getAgent dt h.agents out = (out, .error) := by
  obtain ⟨v, hstop, hquery⟩ := hfails
  rw [getAgent_eq, hstop, Option.map_some, Option.getD_some, getAgentCallback_eq, if_pos hquery]

/-- `handle_error` accepts the outcome of an agent search unless a query fails. -/
theorem getAgent_accepted_iff (out : Option Agent) :
    (getAgent dt h.agents out).2.Accepted ↔ ¬ h.AgentSearchFails dt := by
  by_cases hfails : h.AgentSearchFails dt
  · rw [getAgent_of_fails hfails]
    simp [HsaStatus.Accepted, hfails]
  · rw [getAgent_of_not_fails hfails]
    cases h.firstAgent dt <;> simp [HsaStatus.Accepted, hfails]

theorem handleError_getAgent_iff (out : Option Agent) (line : ℕ) :
    h.handleError (getAgent dt h.agents out).2 line = .ok () ↔ ¬ h.AgentSearchFails dt :=
  (Hsa.handleError_eq_ok_iff _ line).trans (getAgent_accepted_iff out)

theorem getAgent_fst_of_not_fails (hfails : ¬ h.AgentSearchFails dt) :
    (getAgent dt h.agents none).1 = h.firstAgent dt := by
  rw [getAgent_of_not_fails hfails]
  cases h.firstAgent dt <;> rfl

/-! ## The search for a pool -/

/-- What the callback of the pool search does. -/
theorem getAgentMemoryPoolCallback_eq (fl : PoolFlag) (v : PoolVisit) (out : Option Pool) :
    getAgentMemoryPoolCallback fl v out =
      if v.QueryFails then (out, .error)
      else (if v.pool.Matches fl then some v.pool else out, .success) := by
  rw [getAgentMemoryPoolCallback]
  by_cases hsegment : v.segmentQuery ≠ .success
  · rw [if_pos hsegment, if_pos (.inl hsegment)]
  · rw [if_neg hsegment]
    by_cases hglobal : v.pool.segment ≠ .global
    · -- the flags of a pool outside the global segment are not queried
      have hquery : ¬ v.QueryFails := by
        rintro (hfails | ⟨heq, -⟩)
        exacts [hsegment hfails, hglobal heq]
      have hmatches : ¬ v.pool.Matches fl := fun hm => hglobal hm.1
      rw [if_pos hglobal, if_neg hquery, if_neg hmatches]
    · rw [if_neg hglobal]
      rw [not_not] at hglobal
      by_cases hflags : v.flagsQuery ≠ .success
      · rw [if_pos hflags, if_pos (.inr ⟨hglobal, hflags⟩)]
      · have hquery : ¬ v.QueryFails := by
          rintro (hfails | ⟨-, hfails⟩)
          exacts [hsegment hfails, hflags hfails]
        have hmatches : v.pool.Matches fl ↔ v.pool.flags &&& fl.bit ≠ 0 :=
          ⟨And.right, fun hbit => ⟨hglobal, hbit⟩⟩
        rw [if_neg hflags, if_neg hquery]
        simp only [hmatches]

/-- Without a failure `get_agent_memory_pool` stores the last pool that matches, if there is
one. -/
theorem getAgentMemoryPool_of_not_fails (hfails : ¬ h.PoolSearchFails a) (out : Option Pool) :
    h.getAgentMemoryPool fl (some a) out =
      ((((h.pools a).reverse.find? fun v => v.pool.Matches fl).map PoolVisit.pool).or out,
        .success) := by
  rw [Hsa.getAgentMemoryPool]
  refine iterate_eq_last (fun v hv o => ?_) out
  rw [getAgentMemoryPoolCallback_eq, if_neg fun hquery => hfails ⟨v, hv, hquery⟩]
  simp only [decide_eq_true_eq]

/-- After a failure the status is `HSA_STATUS_ERROR`. -/
theorem getAgentMemoryPool_of_fails (hfails : h.PoolSearchFails a) (out : Option Pool) :
    (h.getAgentMemoryPool fl (some a) out).2 = .error := by
  have hstatus (v : PoolVisit) (o : Option Pool) :
      (getAgentMemoryPoolCallback fl v o).2 = if v.QueryFails then .error else .success := by
    rw [getAgentMemoryPoolCallback_eq, apply_ite Prod.snd]
  rw [Hsa.getAgentMemoryPool]
  obtain ⟨v, hv, hquery⟩ := hfails
  -- it ends with success only if no query fails
  have hne : (iterate .success (getAgentMemoryPoolCallback fl) (h.pools a) out).2 ≠ .success := by
    rw [ne_eq, iterate_snd_eq_ok_iff hstatus]
    intro hall
    have hsuccess := hall v hv
    rw [if_pos hquery] at hsuccess
    simp at hsuccess
  -- the callback knows no other status
  obtain hok | ⟨w, -, o, hw⟩ := iterate_snd_eq_ok_or .success (getAgentMemoryPoolCallback fl)
    (h.pools a) out
  · exact absurd hok hne
  · rw [hstatus] at hw
    by_cases hw' : w.QueryFails
    · rwa [if_pos hw'] at hw
    · rw [if_neg hw'] at hw
      exact absurd hw hne

/-- `handle_error` accepts the outcome of the pool search unless a query fails or the runtime
rejects a null handle. -/
theorem getAgentMemoryPool_accepted_iff (ag : Option Agent) (out : Option Pool) :
    (h.getAgentMemoryPool fl ag out).2.Accepted ↔ ¬ h.HandleSearchFails ag := by
  cases ag with
  | none => exact not_not.symm
  | some a =>
    by_cases hfails : h.PoolSearchFails a
    · rw [getAgentMemoryPool_of_fails hfails]
      simp [HsaStatus.Accepted, Hsa.HandleSearchFails, hfails]
    · rw [getAgentMemoryPool_of_not_fails hfails]
      simp [HsaStatus.Accepted, Hsa.HandleSearchFails, hfails]

theorem handleError_getAgentMemoryPool_iff (ag : Option Agent) (out : Option Pool) (line : ℕ) :
    h.handleError (h.getAgentMemoryPool fl ag out).2 line = .ok () ↔ ¬ h.HandleSearchFails ag :=
  (Hsa.handleError_eq_ok_iff _ line).trans (getAgentMemoryPool_accepted_iff ag out)

theorem getAgentMemoryPool_isSome_iff (hfails : ¬ h.PoolSearchFails a) :
    (h.getAgentMemoryPool fl (some a) none).1.isSome ↔ h.HasPool fl a := by
  rw [getAgentMemoryPool_of_not_fails hfails]
  simp [Hsa.HasPool]

/-! ## The setup -/

/-- What follows a check runs exactly if the status is accepted. -/
theorem handleError_bind_eq_ok_iff {α : Type} (code : HsaStatus) (line : ℕ)
    (k : Unit → Except String α) (r : α) :
    (h.handleError code line >>= k) = .ok r ↔ code.Accepted ∧ k () = .ok r := by
  rw [← Hsa.handleError_eq_ok_iff (h := h) code line]
  cases h.handleError code line with
  | ok => exact ⟨fun hk => ⟨rfl, hk⟩, And.right⟩
  | error e => exact ⟨(fun hk => nomatch hk), fun hk => nomatch hk.1⟩

/-- The setup goes on if no check fails, with what the searches have found. -/
theorem setupUringDiscovery_eq_ok_iff (r : Option Agent × Option Agent × Option Pool) :
    h.setupUringDiscovery = .ok r ↔
      h.init.Accepted ∧ ¬ h.AgentSearchFails .gpu ∧ ¬ h.AgentSearchFails .cpu ∧
        ¬ h.HandleSearchFails (h.firstAgent .cpu) ∧
        (h.firstAgent .gpu, h.firstAgent .cpu,
          (h.getAgentMemoryPool .fineGrained (h.firstAgent .cpu) none).1) = r := by
  rw [Hsa.setupUringDiscovery, handleError_bind_eq_ok_iff]
  refine and_congr_right fun _ => ?_
  dsimp only
  rw [handleError_bind_eq_ok_iff, getAgent_accepted_iff]
  refine and_congr_right fun hgpu => ?_
  rw [handleError_bind_eq_ok_iff, getAgent_accepted_iff]
  refine and_congr_right fun hcpu => ?_
  rw [getAgent_fst_of_not_fails hgpu, getAgent_fst_of_not_fails hcpu,
    handleError_bind_eq_ok_iff, getAgentMemoryPool_accepted_iff]
  refine and_congr_right fun _ => ?_
  exact ⟨Except.ok.inj, congrArg Except.ok⟩

/-! ## Soundness -/

/-- When `handle_error` returns after `get_agent`, the first agent that matches is stored. -/
def Hsa.AgentSearchSound (h : Hsa) (dt : DeviceType) : Prop :=
  ∀ out line, h.handleError (getAgent dt h.agents out).2 line = .ok () →
    ∃ a, h.firstAgent dt = some a ∧ (getAgent dt h.agents out).1 = some a

/-- When `handle_error` returns after `get_agent_memory_pool`, a pool that matches is stored. -/
def Hsa.PoolSearchSound (h : Hsa) (fl : PoolFlag) (a : Agent) : Prop :=
  ∀ out line, h.handleError (h.getAgentMemoryPool fl (some a) out).2 line = .ok () →
    ∃ v ∈ h.pools a, v.pool.Matches fl ∧ (h.getAgentMemoryPool fl (some a) out).1 = some v.pool

/-- `setup_uring` goes on with no null handle. -/
def Hsa.SetupSound (h : Hsa) : Prop :=
  ∀ gpu cpu pool, h.setupUringDiscovery = .ok (gpu, cpu, pool) →
    gpu ≠ none ∧ cpu ≠ none ∧ pool ≠ none

theorem agentSearchSound_iff (h : Hsa) (dt : DeviceType) :
    h.AgentSearchSound dt ↔ h.AgentSearchFails dt ∨ h.firstAgent dt ≠ none := by
  constructor
  · intro hsound
    -- a search that passes the check must have found something
    refine or_iff_not_imp_left.mpr fun hfails => ?_
    obtain ⟨a, ha, -⟩ := hsound none 0 ((handleError_getAgent_iff none 0).mpr hfails)
    rw [ha]
    simp
  · intro hcases out line hok
    have hfails := (handleError_getAgent_iff out line).mp hok
    obtain ⟨a, ha⟩ := Option.ne_none_iff_exists'.mp (hcases.resolve_left hfails)
    refine ⟨a, ha, ?_⟩
    rw [getAgent_of_not_fails hfails, ha]

theorem poolSearchSound_iff (h : Hsa) (fl : PoolFlag) (a : Agent) :
    h.PoolSearchSound fl a ↔ h.PoolSearchFails a ∨ h.HasPool fl a := by
  constructor
  · intro hsound
    refine or_iff_not_imp_left.mpr fun hfails => ?_
    obtain ⟨v, hv, hmatches, -⟩ :=
      hsound none 0 ((handleError_getAgentMemoryPool_iff (some a) none 0).mpr hfails)
    exact ⟨v, hv, hmatches⟩
  · intro hcases out line hok
    have hfails := (handleError_getAgentMemoryPool_iff (some a) out line).mp hok
    obtain ⟨w, hw, hmatches⟩ := hcases.resolve_left hfails
    rw [getAgentMemoryPool_of_not_fails hfails]
    -- the search has seen `w`, so it has stored something
    cases hlast : (h.pools a).reverse.find? fun v => v.pool.Matches fl with
    | none =>
      rw [List.find?_eq_none] at hlast
      exact absurd (by simpa using hmatches) (hlast w (List.mem_reverse.mpr hw))
    | some v =>
      refine ⟨v, List.mem_reverse.mp (List.mem_of_find?_eq_some hlast), ?_, rfl⟩
      simpa using List.find?_some hlast

theorem setupSound_iff (h : Hsa) :
    h.SetupSound ↔ h.DiscoveryFails ∨ h.Complete := by
  constructor
  · intro hsound
    refine or_iff_not_imp_left.mpr fun hfails => ?_
    simp only [Hsa.DiscoveryFails, not_or, not_not] at hfails
    obtain ⟨hinit, hgpu, hcpu, hhandle⟩ := hfails
    -- the setup goes on, so none of its three handles is null
    obtain ⟨hgpu', hcpu', hpool⟩ := hsound _ _ _
      ((setupUringDiscovery_eq_ok_iff _).mpr ⟨hinit, hgpu, hcpu, hhandle, rfl⟩)
    obtain ⟨a, ha⟩ := Option.ne_none_iff_exists'.mp hcpu'
    rw [ha] at hpool hhandle
    refine ⟨hgpu', a, ha, (getAgentMemoryPool_isSome_iff hhandle).mp ?_⟩
    exact Option.isSome_iff_ne_none.mpr hpool
  · rintro hcases gpu cpu pool hok
    obtain ⟨hinit, hgpu, hcpu, hhandle, heq⟩ := (setupUringDiscovery_eq_ok_iff _).mp hok
    have hfails : ¬ h.DiscoveryFails := by
      simp only [Hsa.DiscoveryFails, not_or, not_not]
      exact ⟨hinit, hgpu, hcpu, hhandle⟩
    obtain ⟨hgpu', a, ha, hpool⟩ := hcases.resolve_left hfails
    rw [ha] at hhandle heq
    cases heq
    refine ⟨hgpu', by simp, Option.isSome_iff_ne_none.mp ?_⟩
    exact (getAgentMemoryPool_isSome_iff hhandle).mpr hpool

/-- On every machine:

* an agent search can be relied on if and only if a query fails before an agent matches or some
  agent matches;
* a pool search can be relied on if and only if a query fails on some pool or some pool matches;
* the setup goes on without a null handle if and only if a call before its end fails or there are a
  GPU with kernel dispatch, a CPU and, on the first CPU, a fine-grained pool in the global
  segment. -/
theorem discovery_sound_iff (h : Hsa) :
    (∀ dt, h.AgentSearchSound dt ↔ h.AgentSearchFails dt ∨ h.firstAgent dt ≠ none) ∧
      (∀ fl a, h.PoolSearchSound fl a ↔ h.PoolSearchFails a ∨ h.HasPool fl a) ∧
      (h.SetupSound ↔ h.DiscoveryFails ∨ h.Complete) :=
  ⟨agentSearchSound_iff h, poolSearchSound_iff h, setupSound_iff h⟩

/-- A machine with a CPU that has a fine-grained pool, and without a GPU. -/
def cpuOnly : Hsa where
  init := .success
  agents := [{ handle := 1, device := .cpu, feature := 0 : Agent }.queried]
  pools _ := [{ pool := { handle := 2, segment := .global, flags := 2 }
                segmentQuery := .success
                flagsQuery := .success }]
  nullAgent := .other 4100
  statusString _ := (.success, none)

/-- On `cpuOnly` the setup goes on with a null handle for the GPU. -/
theorem not_discovery_sound : ¬ ∀ h : Hsa, (∀ dt, h.AgentSearchSound dt) ∧
    (∀ fl a, h.PoolSearchSound fl a) ∧ h.SetupSound := by
  intro hall
  let cpu : Agent := { handle := 1, device := .cpu, feature := 0 }
  let pool : Pool := { handle := 2, segment := .global, flags := 2 }
  have hsetup : cpuOnly.setupUringDiscovery = .ok (none, some cpu, some pool) := rfl
  obtain ⟨hgpu, -, -⟩ := (hall cpuOnly).2.2 _ _ _ hsetup
  exact hgpu rfl

end GpuLibc
