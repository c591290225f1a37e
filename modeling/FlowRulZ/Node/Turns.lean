import FlowRulZ.Node.ExecutePlan

/-! # The turns of an execution

The body of the loop of `runSteps` has six exits and two ways to go on.  Here it is a value,
so that what a turn saves, calls and returns can be read off it.
-/

namespace FlowRulZ.Node

inductive Turn where
  | cancelled (e : String)
  | broken (e : String)
  | done (output : Bytes)
  | refused (pending : Call) (ctxBytes : Bytes) (e : String)
  | answered (pending : Call) (ctxBytes resp : Bytes)
  | continued (ctxBytes : Bytes)
  | unexpected (result : Int)
  deriving Repr, DecidableEq

variable (node : ProdNode)

def waitingFor (pending : Call) (ctxBytes : Bytes) (st : ExecState) : ExecState :=
  if node.hasStateStore then
    { st with
      status := .waitingForService
      pendingSvc := pending.svcId
      pendingBody := pending.body
      ctxBytes := ctxBytes }
  else st

/-- The saga keeps a step that declares a compensation. -/
def registering (names : Names) (pending : Call) : List Effect :=
  if node.hasSaga && (sagaStep names pending).compSvc ≠ "" then
    [.registerStep (sagaStep names pending)]
  else []

def announcing (names : Names) (pending : Call) (ctxBytes : Bytes) (st : ExecState) : List Effect :=
  saving node (waitingFor node pending ctxBytes st) ++ registering node names pending

def turn (plan : Bytes) (names : Names) (step : Nat) (ctxBytes : Bytes)
    (resp : Option Bytes) (st : ExecState) (log : List Effect) : Turn :=
  match node.cancelled step with
  | some e => .cancelled e
  | none =>
    match executeStep node.wire node.host node.scheduler none plan ctxBytes resp with
    | .error e => .broken e
    | .ok out =>
      if out.result = 0 then .done out.output
      else if out.result = 1 then
        let pending : Call := ⟨out.pendingSvc, out.pendingBody, out.timeoutMs⟩
        match node.callService (log ++ announcing node names pending out.ctxBytes st)
          (serviceCall names pending) with
        | .error e => .refused pending out.ctxBytes e
        | .ok resp => .answered pending out.ctxBytes resp
      else if out.result = 2 then .continued out.ctxBytes
      else .unexpected out.result

namespace Turn

def state (st : ExecState) : Turn → ExecState
  | .refused pending ctxBytes _ => waitingFor node pending ctxBytes st
  | .answered _ ctxBytes _ =>
    if node.hasStateStore then
      { st with status := .running, pendingSvc := 0, pendingBody := [], ctxBytes := ctxBytes }
    else st
  | .continued ctxBytes =>
    if node.hasStateStore then { st with status := .running, ctxBytes := ctxBytes } else st
  | _ => st

def effects (names : Names) (st : ExecState) (turn : Turn) : List Effect :=
  match turn with
  | .cancelled _ | .broken _ | .unexpected _ => tryCompensate node
  | .done _ => if node.hasSaga then [.clearSaga] else []
  | .refused pending ctxBytes _ =>
    announcing node names pending ctxBytes st ++ [Effect.call (serviceCall names pending)] ++ tryCompensate node
  | .answered pending ctxBytes _ =>
    announcing node names pending ctxBytes st ++ [Effect.call (serviceCall names pending)] ++
      saving node (turn.state node st)
  | .continued _ => saving node (turn.state node st)

/-- Context and response for the next turn, or the result. -/
def next (names : Names) (step : Nat) : Turn → (Bytes × Option Bytes) ⊕ Except String Bytes
  | .cancelled e => .inr (.error s!"execution cancelled at step {step}: {e}")
  | .broken e => .inr (.error s!"step {step}: {e}")
  | .done output => .inr (.ok output)
  | .refused pending _ e => .inr (.error s!"service {(serviceCall names pending).service}: {e}")
  | .answered _ ctxBytes resp => .inl (ctxBytes, some resp)
  | .continued ctxBytes => .inl (ctxBytes, none)
  | .unexpected result =>
    .inr (.error s!"step {step}: unexpected step result {result} (ctx truncated or invalid)")

/-- The call of a turn, with the context it is made in and what the service said. -/
def call? : Turn → Option (Call × Bytes × Except String Bytes)
  | .refused pending ctxBytes e => some (pending, ctxBytes, .error e)
  | .answered pending ctxBytes resp => some (pending, ctxBytes, .ok resp)
  | _ => none

def calls (names : Names) (now : Turn) : List ServiceCall :=
  (now.call?.map fun (pending, _, _) => serviceCall names pending).toList

end Turn

def turnsFrom (plan : Bytes) (names : Names) :
    Nat → Bytes → Option Bytes → ExecState → List Effect → List Turn
  | 0, _, _, _, _ => []
  | left + 1, ctxBytes, resp, st, log =>
    let step := maxExecutionSteps - (left + 1)
    let now := turn node plan names step ctxBytes resp st log
    match now.next names step with
    | .inl (ctxBytes', resp') =>
      now :: turnsFrom plan names left ctxBytes' resp' (now.state node st) (log ++ now.effects node names st)
    | .inr _ => [now]

section

variable {node} {plan ctxBytes : Bytes} {names : Names} {step : Nat}
  {resp : Option Bytes} {st : ExecState} {log : List Effect}

@[simp]
theorem serviceCalls_append (log more : List Effect) :
    serviceCalls (log ++ more) = serviceCalls log ++ serviceCalls more :=
  List.filterMap_append

@[simp]
theorem serviceCalls_saving (st : ExecState) : serviceCalls (saving node st) = [] := by
  unfold saving
  split_ifs <;> rfl

@[simp]
theorem serviceCalls_tryCompensate : serviceCalls (tryCompensate node) = [] := by
  unfold tryCompensate
  split_ifs <;> rfl

@[simp]
theorem serviceCalls_announcing (pending : Call) (ctxBytes : Bytes) :
    serviceCalls (announcing node names pending ctxBytes st) = [] := by
  unfold announcing registering
  rw [serviceCalls_append, serviceCalls_saving]
  split_ifs <;> rfl

theorem serviceCalls_effects (now : Turn) : serviceCalls (now.effects node names st) = now.calls names := by
  cases now with
  | done output =>
    simp only [Turn.effects]
    split_ifs <;> rfl
  | _ =>
    simp only [Turn.effects, serviceCalls_append, serviceCalls_announcing, serviceCalls_saving,
      serviceCalls_tryCompensate]
    rfl

/-- A turn with a call is a step that left it pending. -/
theorem turn_call {pending : Call} {ctxBytes' : Bytes} {answer : Except String Bytes}
    (called : (turn node plan names step ctxBytes resp st log).call? = some (pending, ctxBytes', answer)) :
    ∃ out, executeStep node.wire node.host node.scheduler none plan ctxBytes resp = .ok out ∧
      out.result = 1 ∧ pending = ⟨out.pendingSvc, out.pendingBody, out.timeoutMs⟩ ∧
      ctxBytes' = out.ctxBytes ∧
      node.callService (log ++ announcing node names pending ctxBytes' st) (serviceCall names pending) =
        answer := by
  unfold turn at called
  cases cancelled : node.cancelled step with
  | some e => simp [cancelled, Turn.call?] at called
  | none =>
    cases stepped : executeStep node.wire node.host node.scheduler none plan ctxBytes resp with
    | error e => simp [cancelled, stepped, Turn.call?] at called
    | ok out =>
      simp only [cancelled, stepped] at called
      by_cases code : out.result = 1
      · simp only [code, one_ne_zero, if_true, if_false] at called
        split at called <;> rename_i said <;> cases called <;> exact ⟨out, rfl, code, rfl, rfl, said⟩
      · split_ifs at called <;> simp [Turn.call?] at called

end

theorem runSteps_succ (plan : Bytes) (names : Names) (left : Nat) (ctxBytes : Bytes)
    (resp : Option Bytes) (st : ExecState) (log : List Effect) :
    runSteps node plan names (left + 1) ctxBytes resp st log =
      let step := maxExecutionSteps - (left + 1)
      let now := turn node plan names step ctxBytes resp st log
      match now.next names step with
      | .inl (ctxBytes', resp') =>
        runSteps node plan names left ctxBytes' resp' (now.state node st) (log ++ now.effects node names st)
      | .inr out => (out, now.state node st, log ++ now.effects node names st) := by
  simp only [runSteps, turn]
  cases node.cancelled (maxExecutionSteps - (left + 1)) with
  | some e => rfl
  | none =>
    cases executeStep node.wire node.host node.scheduler none plan ctxBytes resp with
    | error e => rfl
    | ok out =>
      by_cases done : out.result = 0
      · simp only [done]
        rfl
      by_cases pending : out.result = 1
      · simp only [pending, one_ne_zero, if_true, if_false, announcing, registering, waitingFor, List.append_assoc]
        split
        · simp only [*, Turn.next, Turn.state, Turn.effects, announcing, registering, waitingFor, List.append_assoc]
        · simp only [*, Turn.next, Turn.state, Turn.effects, announcing, registering, waitingFor, List.append_assoc]
          cases node.hasStateStore <;> rfl
      by_cases again : out.result = 2
      · have notDone : (2 : Int) ≠ 0 := by omega
        have notPending : (2 : Int) ≠ 1 := by omega
        simp only [again]
        rfl
      · simp only [done, pending, again]
        rfl

theorem executePlan_eq (plan body : Bytes) : ∃ st, executePlan node plan body =
      let ended := runSteps node plan (planNames node plan) maxExecutionSteps [] none {}
        (if node.hasStateStore then [.create {}] else [])
      (ended.1, ended.2.2 ++ saving node st) := by
  unfold executePlan
  dsimp only
  split <;> rename_i ended <;> rw [ended] <;> exact ⟨_, rfl⟩

end FlowRulZ.Node
