import GpuLibc.Lib.Iterate

/-!
# Agent search

The two forms of `get_agent`: the one of `svm_migration_fg`, which `gpu_svm_demo` uses as well, and
the one of `svm_migration_cg`. They differ in where the iteration stops: the first form passes over
a GPU without kernel dispatch, the second one stops at it and finds nothing.
-/

namespace GpuLibc

open Iteration

/-- The values of `hsa_status_t` that matter here. -/
inductive HsaStatus
  | success
  | infoBreak
  | error
  /-- Any other status, by its number. -/
  | other (code : ℕ)
deriving DecidableEq

/-- `hsa_device_type_t`. -/
inductive DeviceType
  | cpu
  | gpu
  | dsp
  | aie
deriving DecidableEq

/-- `HSA_AGENT_FEATURE_KERNEL_DISPATCH`. -/
def kernelDispatch : BitVec 32 := 1

/-- An agent: its handle and what the two queries ask for. -/
structure Agent where
  handle : ℕ
  device : DeviceType
  feature : BitVec 32
deriving DecidableEq

/-- An agent as a callback meets it, with the status that each query returns. -/
structure AgentVisit where
  agent : Agent
  /-- The status of `hsa_agent_get_info` for `HSA_AGENT_INFO_DEVICE`. -/
  deviceQuery : HsaStatus
  /-- The status of `hsa_agent_get_info` for `HSA_AGENT_INFO_FEATURE`. -/
  featureQuery : HsaStatus
deriving DecidableEq

/-- The agent supports kernel dispatch packets. -/
def Agent.Dispatches (a : Agent) : Prop := a.feature &&& kernelDispatch ≠ 0

instance (a : Agent) : Decidable a.Dispatches := inferInstanceAs (Decidable (_ ≠ _))

/-- The agent has the device type, and kernel dispatch if that is the type of a GPU. -/
def Agent.Matches (dt : DeviceType) (a : Agent) : Prop :=
  a.device = dt ∧ (dt = .gpu → a.Dispatches)

instance (dt : DeviceType) (a : Agent) : Decidable (a.Matches dt) :=
  inferInstanceAs (Decidable (_ ∧ _))

/-- The callback of `get_agent<DT>` in `gpu_svm_demo` and `svm_migration_fg`; `out` is what the
output pointer designates, and a null handle is `none`. -/
def getAgentCallback (dt : DeviceType) (v : AgentVisit) (out : Option Agent) :
    Option Agent × HsaStatus :=
  if v.deviceQuery ≠ .success then (out, .error)
  else if v.agent.device ≠ dt then (out, .success)
  else if dt = .gpu then
    if v.featureQuery ≠ .success then (out, .error)
    else if v.agent.feature &&& kernelDispatch = 0 then (out, .success)
    else (some v.agent, .infoBreak)
  else (some v.agent, .infoBreak)

/-- `get_agent<DT>` in `gpu_svm_demo` and `svm_migration_fg`. -/
def getAgent (dt : DeviceType) (visits : List AgentVisit) (out : Option Agent) :
    Option Agent × HsaStatus :=
  iterate .success (getAgentCallback dt) visits out

/-- The callback of `get_agent<flag>` in `svm_migration_cg`. -/
def getAgentCgCallback (flag : DeviceType) (v : AgentVisit) (out : Option Agent) :
    Option Agent × HsaStatus :=
  if v.deviceQuery ≠ .success then (out, v.deviceQuery)
  else if v.agent.device = flag then
    if v.agent.device = .gpu then
      if v.featureQuery ≠ .success then (out, v.featureQuery)
      -- the search ends at the first GPU, also when nothing is stored
      else (if v.agent.feature &&& kernelDispatch ≠ 0 then some v.agent else out, .infoBreak)
    else (some v.agent, .infoBreak)
  else (out, .success)

/-- `get_agent<flag>` in `svm_migration_cg`. -/
def getAgentCg (flag : DeviceType) (visits : List AgentVisit) (out : Option Agent) :
    Option Agent × HsaStatus :=
  iterate .success (getAgentCgCallback flag) visits out

/-- A visit during which both queries succeed. -/
def Agent.queried (a : Agent) : AgentVisit :=
  { agent := a, deviceQuery := .success, featureQuery := .success }

/-! ## The searches -/

variable {dt : DeviceType} {a : Agent} {v : AgentVisit} {out : Option Agent}

/-- A query of the first form fails on the agent. -/
def AgentVisit.QueryFails (dt : DeviceType) (v : AgentVisit) : Prop :=
  v.deviceQuery ≠ .success ∨ dt = .gpu ∧ v.agent.device = .gpu ∧ v.featureQuery ≠ .success

instance (dt : DeviceType) (v : AgentVisit) : Decidable (v.QueryFails dt) :=
  inferInstanceAs (Decidable (_ ∨ _))

/-- The first form stops at the agent. -/
def AgentVisit.stops (dt : DeviceType) (v : AgentVisit) : Bool :=
  v.QueryFails dt ∨ v.agent.Matches dt

theorem AgentVisit.stops_iff : v.stops dt = true ↔ v.QueryFails dt ∨ v.agent.Matches dt := by
  rw [AgentVisit.stops, decide_eq_true_iff]

/-- What the callback of the first form does. -/
theorem getAgentCallback_eq (dt : DeviceType) (v : AgentVisit) (out : Option Agent) :
    getAgentCallback dt v out =
      if v.QueryFails dt then (out, .error)
      else if v.agent.Matches dt then (some v.agent, .infoBreak)
      else (out, .success) := by
  simp only [getAgentCallback, AgentVisit.QueryFails, Agent.Matches, Agent.Dispatches]
  by_cases hdevice : v.deviceQuery = .success
  · by_cases htype : v.agent.device = dt
    · by_cases hgpu : dt = .gpu <;> by_cases hfeature : v.featureQuery = .success <;>
        by_cases hdispatch : v.agent.feature &&& kernelDispatch = 0 <;>
        simp [hdevice, htype, hgpu, hfeature, hdispatch]
    · -- an agent of another type is passed over without a further query
      have hother : ¬ (dt = .gpu ∧ v.agent.device = .gpu ∧ v.featureQuery ≠ .success) :=
        fun hfails => htype (hfails.2.1.trans hfails.1.symm)
      simp [hdevice, htype, hother]
  · simp [hdevice]

/-- The first form is a search for the first agent that matches or on which a query fails. -/
theorem getAgent_eq (dt : DeviceType) (visits : List AgentVisit) (out : Option Agent) :
    getAgent dt visits out =
      ((visits.find? (AgentVisit.stops dt)).map fun v => getAgentCallback dt v out).getD
        (out, .success) := by
  apply iterate_eq_find?
  · intro v out hv
    -- passed over without a trace
    rw [AgentVisit.stops, decide_eq_false_iff_not, not_or] at hv
    rw [getAgentCallback_eq, if_neg hv.1, if_neg hv.2]
  · intro v out hv
    rw [AgentVisit.stops_iff] at hv
    rw [getAgentCallback_eq]
    -- stopped by a failure or by a match
    by_cases hfails : v.QueryFails dt
    · rw [if_pos hfails]
      simp
    · rw [if_neg hfails, if_pos (hv.resolve_left hfails)]
      simp

/-- With successful queries, the first form is a search for the first agent that matches. -/
theorem getAgent_queried (dt : DeviceType) (agents : List Agent) (out : Option Agent) :
    getAgent dt (agents.map Agent.queried) out =
      ((agents.find? fun a => a.Matches dt).map fun a => (some a, .infoBreak)).getD
        (out, .success) := by
  have hnot (a : Agent) : ¬ a.queried.QueryFails dt := by
    simp [AgentVisit.QueryFails, Agent.queried]
  -- without failures only a match stops the search
  have hstops (a : Agent) : AgentVisit.stops dt a.queried = decide (a.Matches dt) := by
    rw [AgentVisit.stops, decide_eq_decide, or_iff_right (hnot a)]
    rfl
  have hfind : (agents.map Agent.queried).find? (AgentVisit.stops dt) =
      (agents.find? fun a => a.Matches dt).map Agent.queried := by
    rw [List.find?_map]
    congr 2
    ext a
    exact hstops a
  rw [getAgent_eq, hfind]
  cases hfirst : agents.find? fun a => a.Matches dt with
  | none => rfl
  | some a =>
    have hmatches : a.Matches dt := by simpa using List.find?_some hfirst
    simp only [Option.map_some, Option.getD_some]
    rw [getAgentCallback_eq, if_neg (hnot a)]
    exact if_pos hmatches

/-- The second form stops at the agent. -/
def AgentVisit.stopsCg (flag : DeviceType) (v : AgentVisit) : Bool :=
  v.deviceQuery ≠ .success ∨ v.agent.device = flag

theorem getAgentCgCallback_of_not_stops (h : v.stopsCg dt = false) :
    getAgentCgCallback dt v out = (out, .success) := by
  rw [AgentVisit.stopsCg, decide_eq_false_iff_not, not_or] at h
  rw [getAgentCgCallback, if_neg h.1, if_neg h.2]

theorem getAgentCgCallback_snd_ne (h : v.stopsCg dt = true) :
    (getAgentCgCallback dt v out).2 ≠ .success := by
  rw [AgentVisit.stopsCg, decide_eq_true_iff] at h
  rw [getAgentCgCallback]
  by_cases hdevice : v.deviceQuery ≠ .success
  · rw [if_pos hdevice]
    exact hdevice
  · rw [if_neg hdevice, if_pos (h.resolve_left hdevice)]
    by_cases hgpu : v.agent.device = .gpu
    · rw [if_pos hgpu]
      by_cases hfeature : v.featureQuery ≠ .success
      · rw [if_pos hfeature]
        exact hfeature
      · rw [if_neg hfeature]
        simp
    · rw [if_neg hgpu]
      simp

/-- At an agent of the device type the second form stores it if it matches, and ends. -/
theorem getAgentCgCallback_queried (h : a.device = dt) :
    getAgentCgCallback dt a.queried out = (if a.Matches dt then some a else out, .infoBreak) := by
  have hdevice : ¬ a.queried.deviceQuery ≠ .success := fun hfails => hfails rfl
  have hfeature : ¬ a.queried.featureQuery ≠ .success := fun hfails => hfails rfl
  have hagent : a.queried.agent = a := rfl
  rw [getAgentCgCallback, if_neg hdevice, hagent, if_pos h]
  by_cases hgpu : a.device = .gpu
  · have hmatches : a.Matches dt ↔ a.feature &&& kernelDispatch ≠ 0 :=
      ⟨fun hm => hm.2 (h ▸ hgpu), fun hm => ⟨h, fun _ => hm⟩⟩
    -- the feature decides what is stored, but the search ends in any case
    rw [if_pos hgpu, if_neg hfeature]
    simp only [hmatches]
  · have hmatches : a.Matches dt := ⟨h, fun hdt => absurd (h.trans hdt) hgpu⟩
    rw [if_neg hgpu, if_pos hmatches]

/-- With successful queries, the second form is a search for the first agent of the device type,
which it stores if it matches. -/
theorem getAgentCg_queried (dt : DeviceType) (agents : List Agent) (out : Option Agent) :
    getAgentCg dt (agents.map Agent.queried) out =
      ((agents.find? fun a => a.device = dt).map fun a =>
        (if a.Matches dt then some a else out, .infoBreak)).getD (out, .success) := by
  have hfind : (agents.map Agent.queried).find? (AgentVisit.stopsCg dt) =
      (agents.find? fun a => a.device = dt).map Agent.queried := by
    rw [List.find?_map]
    congr 2
    ext a
    simp [AgentVisit.stopsCg, Agent.queried]
  rw [getAgentCg, iterate_eq_find? (fun _ _ => getAgentCgCallback_of_not_stops)
    (fun _ _ => getAgentCgCallback_snd_ne), hfind]
  cases hfirst : agents.find? fun a => a.device = dt with
  | none => rfl
  | some a =>
    have hdevice : a.device = dt := by simpa using List.find?_some hfirst
    exact getAgentCgCallback_queried hdevice

/-! ## Agreement -/

/-- For every list of agents whose queries succeed and every device type, the two forms of
`get_agent` select the same agent and return the same status, whatever the output held before, if
and only if the first GPU of the list, when a GPU is searched and there is one, supports kernel
dispatch. -/
theorem getAgent_eq_getAgentCg_iff (dt : DeviceType) (agents : List Agent) :
    (∀ out, getAgent dt (agents.map Agent.queried) out =
        getAgentCg dt (agents.map Agent.queried) out) ↔
      (dt = .gpu → ∀ a, (agents.find? fun a => a.device = .gpu) = some a → a.Dispatches) := by
  constructor
  · rintro hagree rfl a hfirst
    by_contra hdispatch
    have hno : ¬ a.Matches .gpu := fun hmatches => hdispatch (hmatches.2 rfl)
    have hout := hagree none
    rw [getAgent_queried, getAgentCg_queried, hfirst, Option.map_some, Option.getD_some,
      if_neg hno] at hout
    -- the second form reports a break without an agent
    cases hmatch : agents.find? fun a => a.Matches .gpu <;> simp [hmatch] at hout
  · intro hfirst out
    rw [getAgent_queried, getAgentCg_queried]
    cases hdevice : agents.find? fun a => a.device = dt with
    | none =>
      have hnone : (agents.find? fun a => a.Matches dt) = none := by
        rw [List.find?_eq_none] at hdevice ⊢
        intro a ha hmatches
        exact hdevice a ha (by simpa using (of_decide_eq_true hmatches).1)
      rw [hnone]
      rfl
    | some a =>
      have htype : a.device = dt := by simpa using List.find?_some hdevice
      have hmatches : a.Matches dt := ⟨htype, by
        rintro rfl
        exact hfirst rfl a hdevice⟩
      -- so the first agent of the type is also the first one that matches
      have hsome : (agents.find? fun a => a.Matches dt) = some a := by
        refine find?_eq_some_of_imp (fun b hb => ?_) hdevice (by simpa using hmatches)
        simpa using (of_decide_eq_true hb).1
      rw [hsome, Option.map_some, Option.map_some, if_pos hmatches]

/-- A GPU without kernel dispatch in front of one with it. -/
def twoGpus : List Agent :=
  [{ handle := 1, device := .gpu, feature := 0 }, { handle := 2, device := .gpu, feature := 1 }]

/-- On `twoGpus` the first form selects the second GPU, and the other form nothing. -/
theorem getAgent_ne_getAgentCg : ¬ ∀ (dt : DeviceType) (agents : List Agent) (out : Option Agent),
    getAgent dt (agents.map Agent.queried) out =
      getAgentCg dt (agents.map Agent.queried) out := by
  intro h
  exact absurd (h .gpu twoGpus none) (by decide)

end GpuLibc
