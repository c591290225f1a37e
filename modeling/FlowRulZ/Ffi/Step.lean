import FlowRulZ.Executor.Stepping

/-! # Stepping across the language border

`flowrulz_execute_step` makes one step of a machine that it rebuilds from bytes, and
`bridge.ExecuteStep` calls it with buffers of fixed size.  The plan cache between them
returns what decoding would return, and the texts of errors go into a buffer that no
caller reads; neither is embedded.
-/

namespace FlowRulZ

structure Wire where
  /-- `bincode::deserialize` of a plan -/
  readPlan : Bytes → Option ExecutionPlan
  readPlan_nil : readPlan [] = none
  /-- `bincode::serialize` of a context, for one value of the fields the machine never touches -/
  ctxBytes : ExecutionContext → Bytes
  readCtx : Bytes → Option ExecutionContext
  readCtx_ctxBytes : ∀ ctx, readCtx (ctxBytes ctx) = some ctx
  ctxBytes_body : ∀ ctx, ctx.body.length < (ctxBytes ctx).length
  /-- the service entries as JSON, from `serde_json` to `encoding/json` -/
  servicesJson : List ServiceEntry → Bytes
  readServices : Bytes → Option (List ServiceEntry)
  readServices_servicesJson : ∀ entries, readServices (servicesJson entries) = some entries

/-- The errors of the two functions embedded here; a plan is never a null pointer. -/
inductive FfiError where
  | bufferTooSmall
  | deserialize
  | exec
  | versionMismatch
  | panic
  deriving Repr, DecidableEq

def FfiError.code : FfiError → Int
  | .bufferTooSmall => -7
  | .deserialize => -8
  | .exec => -9
  | .versionMismatch => -10
  | .panic => -11

def bytecodeVersion : UInt64 := 1

/-- What a call of `flowrulz_execute_step` leaves behind: its code, and the parameters it wrote, 0 or empty if it did
not. -/
structure StepOutput where
  result : Int
  output : Bytes := []
  pendingSvc : UInt16 := 0
  pendingBody : Bytes := []
  timeoutMs : UInt64 := 0
  ctxBytes : Bytes := []
  deriving Repr, DecidableEq

namespace StepOutput

def failed (e : FfiError) : StepOutput := { result := e.code }

/-- The size of the buffers for output, pending body and context. -/
def bufferSize : Nat := 256 * 1024

/-- The code of a step and the context after it, if that fits its buffer. -/
def withCtx (out : StepOutput) (wire : Wire) (ctx : ExecutionContext) : StepOutput :=
  if bufferSize < (wire.ctxBytes ctx).length then { out with result := FfiError.bufferTooSmall.code }
  else { out with ctxBytes := wire.ctxBytes ctx }

/-- The eight bytes of a number, lowest first. -/
def leBytes (n : UInt64) : Bytes :=
  (List.range 8).map fun i => (n >>> (8 * UInt64.ofNat i)).toUInt8

def ofResult (wire : Wire) (ctx : ExecutionContext) : VM.StepResult → StepOutput
  | .done =>
    if bufferSize < ctx.body.length then failed .bufferTooSmall
    else withCtx { result := 0, output := ctx.body } wire ctx
  | .continue => withCtx { result := 2 } wire ctx
  | .pending svcId body timeoutMs =>
    withCtx { result := 1, pendingSvc := svcId, pendingBody := body.take bufferSize,
              timeoutMs := timeoutMs } wire ctx
  | .delay ms => withCtx { result := 3, pendingBody := leBytes ms, timeoutMs := ms } wire ctx

def ofStep (wire : Wire) : VM × Except (Fault String) VM.StepResult → StepOutput
  | (vm, .ok result) => ofResult wire vm.ctx result
  | (_, .error (.err _)) => failed .exec
  | (_, .error .panic) => failed .panic

end StepOutput

/-- `goServiceCaller` behind the caller of the machine: without a callback, and for any failure, it returns -1. -/
def bridgeCaller (callback : Option Caller) : Caller := fun log call =>
  match callback with
  | none => .error "caller returned -1"
  | some callback =>
    match callback log call with
    | .error _ => .error "caller returned -1"
    | .ok resp => if 65536 < resp.length then .error "caller returned -1" else .ok resp

/-- The context of a step; without bytes it is a fresh one with an empty body. -/
def Wire.context (wire : Wire) (ctxBytes : Bytes) : Option ExecutionContext :=
  if ctxBytes.isEmpty then some (.fromBody []) else wire.readCtx ctxBytes

def flowrulzExecuteStep (wire : Wire) (host : Host) (scheduler : Scheduler)
    (callback : Option Caller) (plan ctxBytes : Bytes) (resp : Option Bytes) : StepOutput :=
  match wire.readPlan plan with
  | none => .failed .deserialize
  | some plan =>
    if plan.version ≠ bytecodeVersion then .failed .versionMismatch
    else
      match wire.context ctxBytes with
      | none => .failed .deserialize
      | some ctx =>
        .ofStep wire (VM.step ⟨host, scheduler, plan, bridgeCaller callback⟩ resp { ctx := ctx })

/-- `bridge.ExecuteStep`: a code below 0 is a result like any other. -/
def executeStep (wire : Wire) (host : Host) (scheduler : Scheduler) (callback : Option Caller)
    (plan ctxBytes : Bytes) (resp : Option Bytes) : Except String StepOutput :=
  if plan.isEmpty then .error "execute step: empty plan"
  else .ok (flowrulzExecuteStep wire host scheduler callback plan ctxBytes resp)

def planBufferSize : Nat := 4096

/-- `flowrulz_plan_services`: as much of the JSON as fits the buffer. -/
def flowrulzPlanServices (wire : Wire) (plan : Bytes) : Except FfiError Bytes :=
  match wire.readPlan plan with
  | none => .error .deserialize
  | some plan =>
    if plan.version ≠ bytecodeVersion then .error .versionMismatch
    else .ok ((wire.servicesJson plan.services.rows).take planBufferSize)

def planServices (wire : Wire) (plan : Bytes) : Except String (List ServiceEntry) :=
  if plan.isEmpty then .error "plan services: empty plan"
  else
    match flowrulzPlanServices wire plan with
    | .error e => .error s!"plan services: ffi error {e.code}"
    | .ok bytes =>
      match wire.readServices bytes with
      | none => .error "plan services: unmarshal"
      | some entries => .ok entries

namespace VM

def callsNothing : OpCode → Bool
  | .next | .async | .emit | .svcCall | .parallel | .dag => false
  | _ => true

theorem not_isCall_of_callsNothing {op : OpCode} (quiet : callsNothing op = true) : isCall op = false := by
  cases op <;> first | rfl | cases quiet

/-- Such an instruction depends neither on the caller nor on the calls made before, and does not fail a call. -/
theorem dispatch_local {host : Host} {scheduler : Scheduler} {plan : ExecutionPlan}
    {instr : Instruction} {ctx : ExecutionContext} (quiet : callsNothing instr.op = true)
    (fine : ctx.failed = false) :
    ∃ after result, after.failed = false ∧ ∀ caller calls,
      dispatch ⟨host, scheduler, plan, caller⟩ instr ⟨ctx, calls⟩ = (⟨after, calls⟩, result) := by
  refine ⟨(dispatch ⟨host, scheduler, plan, fun _ _ => .ok []⟩ instr ⟨ctx, []⟩).1.ctx,
    (dispatch ⟨host, scheduler, plan, fun _ _ => .ok []⟩ instr ⟨ctx, []⟩).2, ?_⟩
  cases op : instr.op with
  | next | async | emit | svcCall | parallel | dag =>
    rw [op] at quiet
    cases quiet
  | key | label | svcArg | jumpOffset | chunk | delay | buffer => simp [dispatch, op, fine]
  | fallback => simp [dispatch, op, opFallback, fine]
  | drop =>
    simp only [dispatch, op]
    exact ⟨fine, fun _ _ => rfl⟩
  | collect =>
    simp only [dispatch, op, opCollect]
    cases execCollect host ctx.body <;> exact ⟨fine, fun _ _ => rfl⟩
  | map =>
    simp only [dispatch, op, opMap]
    cases execMap host ctx.body instr plan <;> exact ⟨fine, fun _ _ => rfl⟩
  | gate =>
    simp only [dispatch, op, opGate]
    rcases evaluate host ctx.body instr plan with _ | _ | _ <;> exact ⟨fine, fun _ _ => rfl⟩
  | jmp =>
    simp only [dispatch, op, opJmp]
    split_ifs <;> exact ⟨fine, fun _ _ => rfl⟩
  | typeGuard =>
    simp only [dispatch, op, opTypeGuard]
    cases plan.schema with
    | none =>
      split_ifs <;> exact ⟨fine, fun _ _ => rfl⟩
    | some schema =>
      cases host.fromSlice ctx.body with
      | error e => exact ⟨fine, fun _ _ => rfl⟩
      | ok body =>
        dsimp only
        cases schema.isValid host body <;> exact ⟨fine, fun _ _ => rfl⟩

theorem step_kept {rt : Runtime} {vm vm' : VM} {svcId : UInt16} {body : Bytes} {ms : UInt64}
    (stepped : step rt none vm = (vm', .ok (.pending svcId body ms))) : vm' = vm := by
  simp only [step, respond] at stepped
  cases here : rt.plan.instructions[vm.ctx.ip]? with
  | none =>
    rw [here] at stepped
    cases stepped
  | some instr =>
    simp only [here] at stepped
    cases op : instr.op <;> simp only [op] at stepped
    case next | async | emit | svcCall => exact (Prod.ext_iff.mp stepped).1.symm
    case delay => cases stepped
    all_goals
      split at stepped
      · cases stepped
      · split_ifs at stepped <;> cases stepped

end VM

section

variable {wire : Wire} {host : Host} {scheduler : Scheduler} {plan : ExecutionPlan}
  {bytes ctxBytes : Bytes} {resp : Option Bytes} {ctx : ExecutionContext} {instr : Instruction}

def Fits (wire : Wire) (ctx : ExecutionContext) : Prop :=
  (wire.ctxBytes ctx).length ≤ StepOutput.bufferSize

/-- `ctx` is what a step with these bytes and this response goes on with. -/
def Resumed (wire : Wire) (ctxBytes : Bytes) (resp : Option Bytes) (ctx : ExecutionContext) : Prop :=
  ∃ stored, wire.context ctxBytes = some stored ∧ VM.respond ⟨stored, []⟩ resp = ⟨ctx, []⟩

theorem Wire.context_ctxBytes (wire : Wire) (ctx : ExecutionContext) : wire.context (wire.ctxBytes ctx) = some ctx := by
  have longer := wire.ctxBytes_body ctx
  have filled : (wire.ctxBytes ctx).isEmpty = false := by
    cases written : wire.ctxBytes ctx with
    | nil => simp [written] at longer
    | cons _ _ => rfl
  simp only [context, filled, Bool.false_eq_true, if_false, wire.readCtx_ctxBytes]

open StepOutput

theorem Fits.withCtx (fits : Fits wire ctx) (out : StepOutput) :
    out.withCtx wire ctx = { out with ctxBytes := wire.ctxBytes ctx } := by
  rw [StepOutput.withCtx, if_neg (Nat.not_lt.mpr fits)]

theorem Fits.body (fits : Fits wire ctx) : ctx.body.length ≤ bufferSize :=
  Nat.le_trans (Nat.le_of_lt (wire.ctxBytes_body ctx)) fits

/-- A step that can read its plan is a step of the machine. -/
theorem executeStep_eq (stored : wire.readPlan bytes = some plan)
    (version : plan.version = bytecodeVersion) (resumed : Resumed wire ctxBytes resp ctx) :
    executeStep wire host scheduler none bytes ctxBytes resp = .ok (.ofStep wire
        (VM.step ⟨host, scheduler, plan, bridgeCaller none⟩ none ⟨ctx, []⟩)) := by
  have filled : bytes.isEmpty = false := by
    cases bytes with
    | nil => rw [wire.readPlan_nil] at stored; cases stored
    | cons _ _ => rfl
  obtain ⟨start, read, responded⟩ := resumed
  have stepped : VM.step ⟨host, scheduler, plan, bridgeCaller none⟩ resp ⟨start, []⟩ =
      VM.step ⟨host, scheduler, plan, bridgeCaller none⟩ none ⟨ctx, []⟩ := by
    simp only [VM.step, responded]
    rfl
  simp only [executeStep, filled, Bool.false_eq_true, if_false, flowrulzExecuteStep, stored, version,
    ne_eq, not_true_eq_false, read, stepped]

theorem StepOutput.ofStep_pending {vm : VM} {result : Except (Fault String) VM.StepResult}
    (code : (ofStep wire (vm, result)).result = 1) :
    ∃ svcId body ms, result = .ok (.pending svcId body ms) ∧
      (ofStep wire (vm, result)).ctxBytes = wire.ctxBytes vm.ctx := by
  match result with
  | .error (.err _) => simp [ofStep, failed, FfiError.code] at code
  | .error .panic => simp [ofStep, failed, FfiError.code] at code
  | .ok result =>
    simp only [ofStep, ofResult, withCtx] at code ⊢
    cases result with
    | pending svcId body ms =>
      refine ⟨svcId, body, ms, rfl, ?_⟩
      dsimp only at code ⊢
      split_ifs at code ⊢ with large
      · simp [FfiError.code] at code
      · rfl
    | done | «continue» | delay ms =>
      split_ifs at code <;> simp [failed, FfiError.code] at code

/-- A pending call is pending again if the step is made once more without the response. -/
theorem executeStep_again {out : StepOutput}
    (stepped : executeStep wire host scheduler none bytes ctxBytes resp = .ok out)
    (code : out.result = 1) :
    executeStep wire host scheduler none bytes out.ctxBytes none = .ok out := by
  unfold executeStep at stepped ⊢
  split_ifs at stepped ⊢ with empty
  obtain rfl := Except.ok.inj stepped
  unfold flowrulzExecuteStep at code ⊢
  cases read : wire.readPlan bytes with
  | none => simp [read, failed, FfiError.code] at code
  | some plan =>
    simp only [read] at code ⊢
    split_ifs at code ⊢ with version
    · simp [failed, FfiError.code] at code
    · cases context : wire.context ctxBytes with
      | none => simp [context, failed, FfiError.code] at code
      | some ctx =>
        simp only [context] at code ⊢
        have taken : VM.step ⟨host, scheduler, plan, bridgeCaller none⟩ resp ⟨ctx, []⟩ =
            VM.step ⟨host, scheduler, plan, bridgeCaller none⟩ none (VM.respond ⟨ctx, []⟩ resp) := rfl
        rw [taken] at code ⊢
        rcases pending : VM.step ⟨host, scheduler, plan, bridgeCaller none⟩ none
          (VM.respond ⟨ctx, []⟩ resp) with ⟨vm, result⟩
        rw [pending] at code
        obtain ⟨svcId, body, ms, rfl, written⟩ := ofStep_pending code
        obtain rfl := VM.step_kept pending
        have same : (⟨(VM.respond ⟨ctx, []⟩ resp).ctx, []⟩ : VM) = VM.respond ⟨ctx, []⟩ resp := by
          cases resp <;> rfl
        simp only [pending, written, wire.context_ctxBytes, same]
variable (stored : wire.readPlan bytes = some plan) (version : plan.version = bytecodeVersion)
  (resumed : Resumed wire ctxBytes resp ctx)

include stored version resumed

theorem executeStep_ended (ended : plan.instructions[ctx.ip]? = none) (fits : Fits wire ctx) :
    executeStep wire host scheduler none bytes ctxBytes resp =
      .ok { result := 0, output := ctx.body, ctxBytes := wire.ctxBytes ctx } := by
  rw [executeStep_eq stored version resumed]
  simp only [VM.step, VM.respond, ended, ofStep, ofResult]
  rw [if_neg (Nat.not_lt.mpr fits.body), fits.withCtx]

theorem executeStep_call (here : plan.instructions[ctx.ip]? = some instr)
    (call : VM.isCall instr.op = true) (fits : Fits wire ctx) :
    executeStep wire host scheduler none bytes ctxBytes resp =
      .ok { result := 1, pendingSvc := instr.a, pendingBody := ctx.body,
            timeoutMs := instr.timeoutMs, ctxBytes := wire.ctxBytes ctx } := by
  have stepped : VM.step ⟨host, scheduler, plan, bridgeCaller none⟩ none ⟨ctx, []⟩ =
      (⟨ctx, []⟩, .ok (.pending instr.a ctx.body instr.timeoutMs)) := by
    simp only [VM.step, VM.respond, here]
    cases op : instr.op <;> rw [op] at call <;> first | rfl | cases call
  rw [executeStep_eq stored version resumed, stepped]
  simp only [ofStep, ofResult]
  rw [fits.withCtx, List.take_of_length_le fits.body]

/-- Every other instruction but a delay is dispatched, without anyone to call. If it does not call anyone, the step does
what a run with any caller does. -/
theorem executeStep_dispatch {caller : Caller} {calls : List Call} {after : VM}
    {result : Except (Fault String) Unit} (here : plan.instructions[ctx.ip]? = some instr)
    (quiet : VM.callsNothing instr.op = true) (noDelay : instr.op ≠ .delay)
    (fine : ctx.failed = false)
    (dispatched : VM.dispatch ⟨host, scheduler, plan, caller⟩ instr (VM.advance ⟨ctx, calls⟩) = (after, result)) :
    after.ctx.failed = false ∧ after.calls = calls ∧ executeStep wire host scheduler none bytes ctxBytes resp =
        .ok (.ofStep wire (after, result.map fun _ =>
          if plan.instructions.length ≤ after.ctx.ip then .done else .continue)) := by
  obtain ⟨ctx', result', fine', does⟩ := @VM.dispatch_local host scheduler plan instr
    { ctx with ip := ctx.ip + 1 } quiet fine
  have same := (does caller calls).symm.trans dispatched
  cases same
  have alone : VM.dispatch ⟨host, scheduler, plan, bridgeCaller none⟩ instr (VM.advance ⟨ctx, []⟩) =
      (⟨ctx', []⟩, result) := does _ _
  refine ⟨fine', rfl, ?_⟩
  rw [executeStep_eq stored version resumed, VM.step_dispatched here (VM.not_isCall_of_callsNothing quiet) noDelay]
  simp only [VM.respond, alone]
  match result with
  | .error (.err _) => rfl
  | .error .panic => rfl
  | .ok () =>
    simp only [Except.map]
    split_ifs <;> rfl

end

end FlowRulZ
