import FlowRulZ.Executor.Dag
import FlowRulZ.Executor.Gate
import FlowRulZ.Lib.Machine

/-! # The virtual machine

`VM::dispatch` executes one instruction.  `VM::run` dispatches until the instruction
pointer leaves the plan; `VM::step` does the same one instruction at a time, but hands
service calls to its own caller.
-/

namespace FlowRulZ

/-- The fields of `ExecutionContext` that the machine reads or writes. -/
structure ExecutionContext where
  body : Bytes
  failed : Bool := false
  errors : List String := []
  hopCount : UInt16 := 0
  ip : Nat := 0
  deriving Repr, DecidableEq

def ExecutionContext.fromBody (body : Bytes) : ExecutionContext := { body := body }

structure Runtime where
  host : Host
  scheduler : Scheduler
  plan : ExecutionPlan
  caller : Caller

structure VM where
  ctx : ExecutionContext
  calls : List Call := []
  deriving Repr, DecidableEq

namespace VM

/-- The machine a run ends in, and how it ends. -/
abbrev Outcome := VM × Except (Fault String) Unit

def setBody (vm : VM) (body : Bytes) : VM := { vm with ctx := { vm.ctx with body := body } }

def setIp (vm : VM) (ip : Nat) : VM := { vm with ctx := { vm.ctx with ip := ip } }

def setCalls (vm : VM) (calls : List Call) : VM := { vm with calls := calls }

def advance (vm : VM) : VM := vm.setIp (vm.ctx.ip + 1)

/-- `hop_count += 1`, which wraps. -/
def hop (vm : VM) : VM := { vm with ctx := { vm.ctx with hopCount := vm.ctx.hopCount + 1 } }

/-- The answer of a service becomes the body, or its error is noted. -/
def answered (vm : VM) : Except String Bytes → VM
  | .ok resp => (vm.setBody resp).hop
  | .error e =>
    { vm with ctx := { vm.ctx with failed := true, errors := vm.ctx.errors ++ [e] } }

variable (rt : Runtime)

def opNext (instr : Instruction) (isAsync : Bool) (vm : VM) : VM :=
  let result := execNext rt.caller vm.ctx.body instr rt.plan isAsync vm.calls
  (vm.setCalls result.2).answered result.1

def opFallback (instr : Instruction) (vm : VM) : VM :=
  if vm.ctx.failed then
    opNext rt instr false { vm with ctx := { vm.ctx with failed := false } }
  else vm

def opSvcCall (instr : Instruction) (vm : VM) : VM :=
  let call : Call := ⟨instr.a, vm.ctx.body, instr.timeoutMs⟩
  (vm.setCalls (vm.calls ++ [call])).answered (rt.caller vm.calls call)

def withBody (vm : VM) (exec : Exec Bytes) : Outcome :=
  match exec vm.calls with
  | (.ok body, calls) => ((vm.setCalls calls).setBody body, .ok ())
  | (.error e, calls) => (vm.setCalls calls, .error e)

def opParallel (instr : Instruction) (vm : VM) : Outcome :=
  vm.withBody (execParallel rt.host rt.scheduler rt.caller vm.ctx.body instr rt.plan)

def opCollect (vm : VM) : Outcome :=
  match execCollect rt.host vm.ctx.body with
  | .ok body => ((vm.setBody body).hop, .ok ())
  | .error e => (vm, .error (.err e))

def opGate (instr : Instruction) (vm : VM) : Outcome :=
  match evaluate rt.host vm.ctx.body instr rt.plan with
  | none => (vm, .error .panic)
  | some true => (vm, .ok ())
  | some false => (vm.setIp (vm.ctx.ip + skipCount rt.plan vm.ctx.ip), .ok ())

def opEmit (instr : Instruction) (vm : VM) : Outcome :=
  match execEmit rt.caller vm.ctx.body instr rt.plan vm.calls with
  | (result, calls) => (vm.setCalls calls, result)

def opDrop (vm : VM) : VM := vm.setIp rt.plan.instructions.length

def opMap (instr : Instruction) (vm : VM) : Outcome :=
  match execMap rt.host vm.ctx.body instr rt.plan with
  | .ok body => (vm.setBody body, .ok ())
  | .error e => (vm, .error e)

def opDag (instr : Instruction) (vm : VM) : Outcome :=
  match vm.withBody (execDag rt.host rt.caller vm.ctx.body instr rt.plan) with
  | (vm, .ok ()) => (vm.hop, .ok ())
  | (vm, .error e) => (vm, .error e)

def opJmp (instr : Instruction) (vm : VM) : Outcome :=
  let target := instr.a.toNat
  let length := rt.plan.instructions.length
  if length ≤ target then
    (vm, .error (.err s!"Jmp target {target} out of bounds ({length} instructions)"))
  else (vm.setIp target, .ok ())

def opTypeGuard (instr : Instruction) (vm : VM) : Outcome :=
  match rt.plan.schema with
  | none =>
    if instr.a = 0 then (vm, .ok ()) else (vm, .error (.err "schema required but not provided"))
  | some schema =>
    match rt.host.fromSlice vm.ctx.body with
    | .error e => (vm, .error (.err s!"TypeGuard: failed to parse body: {e}"))
    | .ok body =>
      match schema.isValid rt.host body with
      | .error e => (vm, .error (.err s!"TypeGuard: {e}"))
      | .ok () => (vm, .ok ())

def dispatch (instr : Instruction) (vm : VM) : Outcome :=
  match instr.op with
  | .next => (opNext rt instr false vm, .ok ())
  | .async => (opNext rt instr true vm, .ok ())
  | .parallel => opParallel rt instr vm
  | .collect => opCollect rt vm
  | .fallback => (opFallback rt instr vm, .ok ())
  | .gate => opGate rt instr vm
  | .emit => opEmit rt instr vm
  | .drop => (opDrop rt vm, .ok ())
  | .map => opMap rt instr vm
  | .dag => opDag rt instr vm
  | .jmp => opJmp rt instr vm
  | .key | .label | .svcArg | .jumpOffset => (vm, .ok ())
  | .buffer => (vm, .error (.err "Buffer must be handled at engine level"))
  | .chunk => (vm, .ok ())
  | .typeGuard => opTypeGuard rt instr vm
  | .svcCall => (opSvcCall rt instr vm, .ok ())
  | .delay => (vm, .ok ())

/-- The loop of `VM::run` as a machine. It ends with the last state and the result. -/
def runLoop : Machine VM Outcome where
  next vm :=
    match rt.plan.instructions[vm.ctx.ip]? with
    | none => .inr (vm, .ok ())
    | some instr =>
      match dispatch rt instr vm.advance with
      | (vm, .ok ()) => .inl vm
      | (vm, .error e) => .inr (vm, .error e)

section

variable {rt : Runtime} {vm vm' : VM} {instr : Instruction} {result : Outcome}

theorem dispatch_gate {verdict : Option Bool} {ip : Nat} (op : instr.op = .gate) :
    evaluate rt.host vm.ctx.body instr rt.plan = verdict → dispatch rt instr (vm.setIp ip) = match verdict with
      | none => (vm.setIp ip, .error .panic)
      | some true => (vm.setIp ip, .ok ())
      | some false => (vm.setIp (ip + skipCount rt.plan ip), .ok ()) := by
  rintro rfl
  simp only [dispatch, op]
  rfl

theorem runLoop_step : (runLoop rt).Step vm vm' ↔ ∃ instr, rt.plan.instructions[vm.ctx.ip]? = some instr ∧
      dispatch rt instr vm.advance = (vm', .ok ()) := by
  simp only [Machine.Step, runLoop]
  cases here : rt.plan.instructions[vm.ctx.ip]? with
  | none => simp
  | some instr =>
    rcases dispatched : dispatch rt instr vm.advance with ⟨after, _ | _⟩ <;>
      simp [dispatched]

theorem runLoop_halt : (runLoop rt).next vm = .inr result ↔
    (rt.plan.instructions[vm.ctx.ip]? = none ∧ result = (vm, .ok ())) ∨
      ∃ instr vm' e, rt.plan.instructions[vm.ctx.ip]? = some instr ∧
        dispatch rt instr vm.advance = (vm', .error e) ∧ result = (vm', .error e) := by
  simp only [runLoop]
  cases here : rt.plan.instructions[vm.ctx.ip]? with
  | none => simp [eq_comm]
  | some instr =>
    rcases dispatched : dispatch rt instr vm.advance with ⟨after, _ | _⟩ <;>
      simp [dispatched, eq_comm]

end

/-- The machine before `VM::run` loops: the pointer is reset. -/
def init (ctx : ExecutionContext) : VM := { ctx := { ctx with ip := 0 } }

def Runs (ctx : ExecutionContext) (result : Outcome) : Prop :=
  (runLoop rt).Halts (init ctx) result

inductive StepResult where
  | done
  | continue
  | pending (svcId : UInt16) (body : Bytes) (timeoutMs : UInt64)
  | delay (ms : UInt64)
  deriving Repr, DecidableEq

/-- A response is taken as the answer of the call the pointer is at. -/
def respond (vm : VM) : Option Bytes → VM
  | none => vm
  | some resp => ((vm.setBody resp).hop).advance

def step (response : Option Bytes) (vm : VM) : VM × Except (Fault String) StepResult :=
  let vm := vm.respond response
  match rt.plan.instructions[vm.ctx.ip]? with
  | none => (vm, .ok .done)
  | some instr =>
    match instr.op with
    | .next | .async | .emit | .svcCall =>
      (vm, .ok (.pending instr.a vm.ctx.body instr.timeoutMs))
    | .delay => (vm.advance, .ok (.delay instr.delayMs))
    | _ =>
      match dispatch rt instr vm.advance with
      | (vm, .error e) => (vm, .error e)
      | (vm, .ok ()) =>
        if rt.plan.instructions.length ≤ vm.ctx.ip then (vm, .ok .done)
        else (vm, .ok .continue)

end VM

end FlowRulZ
