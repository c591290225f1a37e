import FlowRulZ.Executor.Json
import FlowRulZ.Lib.Float64
import FlowRulZ.Lib.Text

/-! # Gates and maps -/

namespace FlowRulZ

def Json.atPath : Json → List String → Option Json
  | value, [] => some value
  | .obj fields, part :: rest =>
    match Json.Fields.get? fields part with
    | some value => value.atPath rest
    | none => none
  | _, _ :: _ => none

def extractJsonField (host : Host) (body : Bytes) (fieldPath : String) : Option String :=
  match Utf8.fromUtf8 body with
  | .error _ => none
  | .ok _ =>
    match host.fromSlice body with
    | .error _ => none
    | .ok value => (value.atPath (Text.split fieldPath '.')).map host.jsonText

def numberOf (s : String) : XRat := (Float64.parse s).getD (.fin 0)

def compareValues (field : String) (op : UInt8) (value : String) : Bool :=
  match op.toNat with
  | 0 => field = value
  | 1 => field ≠ value
  | 2 => (numberOf value).lt (numberOf field)
  | 3 => (numberOf field).lt (numberOf value)
  | 4 => (numberOf value).le (numberOf field)
  | 5 => (numberOf field).le (numberOf value)
  | 6 => Text.containsStr field value
  | _ => false

/-- `gate::evaluate`; `none` if a constant is out of range, which panics. -/
def evaluate (host : Host) (body : Bytes) (instr : Instruction) (plan : ExecutionPlan) : Option Bool :=
  match plan.constPool.get? instr.a, plan.constPool.get? instr.b with
  | some fieldPath, some value =>
    match extractJsonField host body fieldPath with
    | some field => some (compareValues field instr.flags value)
    | none => some false
  | _, _ => none

def OpCode.isStop : OpCode → Bool
  | .gate | .label => true
  | _ => false

theorem OpCode.isStop_iff {op : OpCode} : op.isStop = true ↔ op = .gate ∨ op = .label := by
  cases op <;> simp [isStop]

/-- `skip_count`: the offset of the gate at `ip` and all instructions up to the next gate or label. -/
def skipCount (plan : ExecutionPlan) (ip : Nat) : Nat :=
  1 + ((plan.instructions.drop (ip + 1)).takeWhile fun instr => !instr.op.isStop).length

def listText (host : Host) (values : List Json) : String :=
  "[" ++ Text.join "," (values.map host.jsonText) ++ "]"

def dotPath (host : Host) : Json → List String → String
  | current, [] => host.jsonText current
  | current, part :: rest =>
    if part = "[]" then
      match current with
      | .arr (first :: _) => host.jsonText first
      | _ => "null"
    else if part = "*" then
      match current with
      | .obj fields => listText host (fields.map (·.2))
      | .arr items => listText host items
      | _ => "null"
    else
      match current with
      | .obj fields => dotPath host ((Json.Fields.get? fields part).getD .null) rest
      | _ => "null"

def extractDotPath (host : Host) (path : String) (body : Bytes) : Except String Bytes :=
  match Utf8.fromUtf8 body with
  | .error e => .error s!"invalid utf8: {e}"
  | .ok _ =>
    match host.fromSlice body with
    | .error e => .error s!"invalid json: {e}"
    | .ok value => .ok (Utf8.encode (dotPath host value (Text.split path '.')))

def execMap (host : Host) (body : Bytes) (instr : Instruction) (plan : ExecutionPlan) : Except (Fault String) Bytes :=
  match plan.constPool.get? instr.a with
  | none => .error .panic
  | some expr =>
    if Text.startsWith expr "w:" then (host.callPlugin expr body).mapError .err
    else if expr = "" then .ok body
    else if Text.contains expr '=' then host.evalMapExpression expr body
    else
      match Text.stripPrefix expr "." with
      | some path => (extractDotPath host path body).mapError .err
      | none => .ok body

end FlowRulZ
