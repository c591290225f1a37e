import FlowRulZ.Dsl.Ast
import FlowRulZ.Dsl.Dag

/-! # The compiler

`compile` reads the schema, checks gates and maps against it, and then walks the
nodes once.  The loop is a fold of `compileNode` over the nodes; its state is the
source's local variables.
-/

namespace FlowRulZ.Compiler

structure State where
  plan : ExecutionPlan
  labels : List (String × Nat) := []
  instructions : List Instruction := []
  pendingRetry : Option RetryConfig := none
  pendingTimeoutMs : Option UInt64 := none

namespace State

def push (st : State) (instr : Instruction) : State :=
  { st with instructions := st.instructions ++ [instr] }

/-- `resolve_service` enters the name in the plan's service table. -/
def resolveService (st : State) (name : String) : State :=
  { st with plan := { st.plan with services := (st.plan.services.add name).1 } }

def serviceId (st : State) (name : String) : UInt16 := (st.plan.services.add name).2

def addConst (st : State) (s : String) : State :=
  { st with plan := { st.plan with constPool := (st.plan.constPool.add s).1 } }

def constId (st : State) (s : String) : UInt16 := (st.plan.constPool.add s).2

end State

/-- The strategy a retry's text stands for; anything unknown is exponential. -/
def retryStrategy : Option String → RetryStrategy
  | some "linear" => .linear
  | some "fixed" => .fixed
  | _ => .exponential

def retryConfig (count : UInt8) (strategy : Option String) (fixedMs : Option UInt32) : RetryConfig :=
  ⟨count, retryStrategy strategy, fixedMs.getD 0⟩

def chunkMode : String → ChunkMode
  | "par" => .parallel
  | _ => .sequential

variable (self : Compiler)

/-- A fan-out: every target is resolved, then one instruction holds the number of targets (cut to 8 bits) and the first
id, and one argument follows per target. Taking the first id of no targets panics. -/
def compileFanOut (st : State) (head : UInt8 → UInt16 → Instruction) (targets : List String) :
    Except (Fault CompileError) State :=
  match (st.plan.services.addAll targets).2 with
  | [] => .error .panic
  | first :: rest =>
    let ids := first :: rest
    .ok { st with
      plan := { st.plan with services := (st.plan.services.addAll targets).1 }
      instructions :=
        st.instructions ++ head (UInt8.ofNat ids.length) first :: ids.map Instruction.svcArg }

def compileNode (st : State) : ASTNode → Except (Fault CompileError) State
  | .label name =>
    if (st.labels.lookup name).isSome then .error (.err (.duplicateLabel name))
    else .ok ({ st with labels := (name, st.instructions.length) :: st.labels }.push .label)
  | .jmp target =>
    -- a label that comes later is not in the map yet, and counts as index 0
    let targetIdx := UInt16.ofNat ((st.labels.lookup target).getD 0)
    .ok ((st.push (.jmp targetIdx)).push (.jumpOffset targetIdx))
  | .next target =>
    .ok ({ st.resolveService target with pendingTimeoutMs := none }.push
      (.next (st.serviceId target) (st.pendingTimeoutMs.getD 0)))
  | .async target =>
    .ok ({ st.resolveService target with pendingTimeoutMs := none }.push
      (.asyncSvc (st.serviceId target) (st.pendingTimeoutMs.getD 0)))
  | .parallel targets => compileFanOut st .parallel targets
  | .collect => .ok (st.push .collect)
  | .fallback target => .ok ((st.resolveService target).push (.fallback (st.serviceId target)))
  | .gate field op value =>
    let withField := st.addConst field
    let gateOp := (GateOp.parse op).getD .eq
    .ok (((withField.addConst value).push
      (.gate (st.constId field) gateOp.toU8 (withField.constId value))).push (.jumpOffset 0))
  | .emit targets => compileFanOut st .emit targets
  | .drop => .ok (st.push .drop)
  | .buffer n => .ok (st.push (.buffer n.toUInt8))
  | .key field => .ok ((st.addConst field).push (.setKey (st.constId field)))
  | .split field => .ok ((st.addConst field).push (.setKey (st.constId field)))
  | .map expr => .ok ((st.addConst expr).push (.map (st.constId expr)))
  | .timeout ms => .ok { st with pendingTimeoutMs := some ms }
  | .retry count strategy fixedMs =>
    .ok { st with pendingRetry := some (retryConfig count strategy fixedMs) }
  | .chunk count mode =>
    let cm := chunkMode mode
    let plan := { st.plan with chunkConfigs := st.plan.chunkConfigs ++ [⟨count, cm⟩] }
    .ok ({ st with plan := plan }.push (.chunk count cm.toU8))
  | .dag body =>
    match self.compileDag st.plan body with
    | .error e => .error (.err e)
    | .ok (plan, dagId) => .ok ({ st with plan := plan }.push (.dag dagId))
  | .schema _ => .ok (st.push (.typeGuard 1))
  | .delay ms => .ok (st.push (.delay ms))
  | .pipe => .ok st

def compileNodes (st : State) : List ASTNode → Except (Fault CompileError) State
  | [] => .ok st
  | node :: rest =>
    match self.compileNode st node with
    | .error e => .error e
    | .ok st => compileNodes st rest

def parsedSchema : List ASTNode → Except CompileError (Option Schema)
  | [] => .ok none
  | .schema body :: _ => (self.compileSchema body).map some
  | _ :: rest => parsedSchema rest

def typeCheck (schema : Schema) : List ASTNode → Except CompileError Unit
  | [] => .ok ()
  | .gate field op _ :: rest =>
    match self.typeCheckGate schema field op with
    | .error e => .error e
    | .ok () => typeCheck schema rest
  | .map expr :: rest =>
    match self.typeCheckMap schema expr with
    | .error e => .error e
    | .ok () => typeCheck schema rest
  | _ :: rest => typeCheck schema rest

/-- After the loop, a pending retry goes to the last instruction if that is a service call; its index replaces operand
`c`. -/
def attachRetry (plan : ExecutionPlan) (instructions : List Instruction) :
    Option RetryConfig → ExecutionPlan × List Instruction
  | none => (plan, instructions)
  | some cfg =>
    match instructions.getLast? with
    | none => (plan, instructions)
    | some instr =>
      if instr.op = .next ∨ instr.op = .async then
        ({ plan with retryConfigs := plan.retryConfigs ++ [cfg] }, instructions.dropLast ++
            [{ instr with
              flags := instr.flags ||| 0x01
              c := UInt16.ofNat plan.retryConfigs.length }])
      else (plan, instructions)

def complexityOf : OpCode → UInt32
  | .next | .async => 10
  | .parallel | .dag => 20
  | .chunk => 25
  | .gate => 5
  | .map => 3
  | .emit => 8
  | .buffer => 15
  | _ => 1

def calcComplexity (plan : ExecutionPlan) : UInt32 :=
  plan.instructions.foldl (fun score instr => score + complexityOf instr.op) 0

def checkSchema (nodes : List ASTNode) : Except CompileError (Option Schema) :=
  match self.parsedSchema nodes with
  | .error e => .error e
  | .ok none => .ok none
  | .ok (some schema) => (self.typeCheck schema nodes).map fun _ => some schema

def finish (schema : Option Schema) (st : State) : ExecutionPlan :=
  let attached := attachRetry (st.plan.withSchema schema) st.instructions st.pendingRetry
  let plan := attached.2.foldl ExecutionPlan.addInstr attached.1
  { plan with complexityScore := calcComplexity plan }

def compile (nodes : List ASTNode) (ruleId : String) : Except (Fault CompileError) ExecutionPlan :=
  match self.checkSchema nodes with
  | .error e => .error (.err e)
  | .ok schema =>
    match self.compileNodes { plan := .new ruleId } nodes with
    | .error e => .error e
    | .ok st => .ok (finish schema st)

def planOf (nodes : List ASTNode) (ruleId : String) : ExecutionPlan :=
  match self.compile nodes ruleId with
  | .ok plan => plan
  | .error _ => .new ruleId

end FlowRulZ.Compiler
