import FlowRulZ.Ffi.Step

/-! # Executing a plan on a node

`ProdNode.executePlan` steps a plan with `runSteps`, which makes the service calls.  What
it does besides, saving states and keeping the saga's list of steps, is an effect log here.
Ids and times of executions are left out.
-/

namespace FlowRulZ.Node

def maxExecutionSteps : Nat := 1000

structure ServiceCall where
  service : String
  method : String
  body : Bytes
  timeoutMs : UInt64
  deriving Repr, DecidableEq

structure SagaStep where
  serviceName : String
  method : String
  body : Bytes
  compSvc : String
  compMethod : String
  deriving Repr, DecidableEq

inductive Status where
  | created
  | running
  | waitingForService
  | completed
  | failed
  deriving Repr, DecidableEq

/-- The fields of `execstate.State` that an execution changes. -/
structure ExecState where
  status : Status := .created
  ctxBytes : Bytes := []
  pendingSvc : UInt16 := 0
  pendingBody : Bytes := []
  output : Bytes := []
  error : String := ""
  deriving Repr, DecidableEq

inductive Effect where
  | create (st : ExecState)
  | save (st : ExecState)
  | registerStep (step : SagaStep)
  | call (call : ServiceCall)
  | clearSaga
  | compensate
  deriving Repr, DecidableEq

def serviceCalls (log : List Effect) : List ServiceCall :=
  log.filterMap fun effect => match effect with
    | .call call => some call
    | _ => none

/-- What a node is configured with, and what happens to it from outside: the answers of services, after the effects so
far, and the step before which the execution is cancelled. A service that answers never answers with nil. -/
structure ProdNode where
  hasStateStore : Bool
  hasSaga : Bool
  callService : List Effect → ServiceCall → Except String Bytes
  cancelled : Nat → Option String
  wire : Wire
  host : Host
  scheduler : Scheduler

def parseServiceMethod (s : String) : String × String := (Text.splitFirst s '.').getD (s, "")

/-- `bridge.ParseCompensation`: service, method, compensating service and its method. -/
def parseCompensation (s : String) : String × String × String × String :=
  match Text.splitFirst s ':' with
  | none => ((parseServiceMethod s).1, (parseServiceMethod s).2, "", "")
  | some (beforeColon, afterColon) =>
    let (svc, method) := parseServiceMethod beforeColon
    match Text.splitFirst afterColon '.' with
    | some (compSvc, compMethod) => (svc, method, compSvc, compMethod)
    | none => (svc, method, svc, afterColon)

/-- Names of services by their ids. -/
abbrev Names := UInt16 → Option String

/-- The map from ids to names; a later entry replaces an earlier one. -/
def nameMap (entries : List ServiceEntry) (id : UInt16) : Option String :=
  (entries.reverse.find? fun entry => entry.id = id).map (·.name)

/-- The name of a service, or a name made up from its id. -/
def rawName (names : Names) (id : UInt16) : String :=
  (names id).getD s!"svc-{id.toNat}"

variable (node : ProdNode)

def saving (st : ExecState) : List Effect := if node.hasStateStore then [.save st] else []

def tryCompensate : List Effect := if node.hasSaga then [.compensate] else []

def serviceCall (names : Names) (call : Call) : ServiceCall :=
  let (svcName, method, _, _) := parseCompensation (rawName names call.svcId)
  ⟨svcName, method, call.body, call.timeoutMs⟩

def sagaStep (names : Names) (call : Call) : SagaStep :=
  let (svcName, method, compSvc, compMethod) := parseCompensation (rawName names call.svcId)
  ⟨svcName, method, call.body, compSvc, compMethod⟩

/-- The loop of `runSteps` with `left` steps to go. -/
def runSteps (plan : Bytes) (names : Names) :
    Nat → Bytes → Option Bytes → ExecState → List Effect → Except String Bytes × ExecState × List Effect
  | 0, _, _, st, log => (.error "execution exceeded max steps", st, log ++ tryCompensate node)
  | left + 1, ctxBytes, resp, st, log =>
    let step := maxExecutionSteps - (left + 1)
    match node.cancelled step with
    | some e =>
      (.error s!"execution cancelled at step {step}: {e}", st, log ++ tryCompensate node)
    | none =>
      match executeStep node.wire node.host node.scheduler none plan ctxBytes resp with
      | .error e => (.error s!"step {step}: {e}", st, log ++ tryCompensate node)
      | .ok out =>
        if out.result = 0 then
          (.ok out.output, st, log ++ if node.hasSaga then [.clearSaga] else [])
        else if out.result = 1 then
          let waiting := if node.hasStateStore then
            { st with
              status := .waitingForService
              pendingSvc := out.pendingSvc
              pendingBody := out.pendingBody
              ctxBytes := out.ctxBytes }
            else st
          let pending : Call := ⟨out.pendingSvc, out.pendingBody, out.timeoutMs⟩
          let call := serviceCall names pending
          let step := sagaStep names pending
          let log := log ++ saving node waiting ++
            if node.hasSaga && step.compSvc ≠ "" then [.registerStep step] else []
          match node.callService log call with
          | .error e =>
            (.error s!"service {call.service}: {e}", waiting, log ++ [.call call] ++ tryCompensate node)
          | .ok resp =>
            let running := if node.hasStateStore then
              { waiting with
                status := .running
                pendingSvc := 0
                pendingBody := []
                ctxBytes := out.ctxBytes }
              else waiting
            runSteps plan names left out.ctxBytes (some resp) running (log ++ [.call call] ++ saving node running)
        else if out.result = 2 then
          let running := if node.hasStateStore then
            { st with status := .running, ctxBytes := out.ctxBytes } else st
          runSteps plan names left out.ctxBytes none running (log ++ saving node running)
        else
          (.error s!"step {step}: unexpected step result {out.result} (ctx truncated or invalid)",
            st, log ++ tryCompensate node)

/-- The names `executePlan` looks up; none if the plan's services cannot be read. -/
def planNames (plan : Bytes) : Names :=
  match planServices node.wire plan with
  | .ok entries => nameMap entries
  | .error _ => fun _ => none

/-- `ProdNode.executePlan`, which does not use the body of the message. -/
def executePlan (plan _body : Bytes) : Except String Bytes × List Effect :=
  let created : List Effect := if node.hasStateStore then [.create {}] else []
  match runSteps node plan (planNames node plan) maxExecutionSteps [] none {} created with
  | (.ok out, st, log) =>
    (.ok out, log ++ saving node { st with status := .completed, output := out })
  | (.error e, st, log) =>
    (.error e, log ++ saving node { st with status := .failed, error := e })

end FlowRulZ.Node
