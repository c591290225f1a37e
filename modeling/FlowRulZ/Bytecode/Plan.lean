import FlowRulZ.Bytecode.Instruction
import FlowRulZ.Lib.Interner

/-! # Execution plans

A plan is a list of instructions with the tables their operands point into.
Fields that neither the compiler nor the executor reads are not modelled.
-/

namespace FlowRulZ

abbrev Bytes := List UInt8

/-- How a Rust function can fail to return a value: by its error type, or by a panic (an index out of range, in the code
embedded here). -/
inductive Fault (ε : Type) where
  | err (e : ε)
  | panic
  deriving Repr, DecidableEq

structure ServiceEntry where
  id : UInt16
  name : String
  deriving Repr, DecidableEq

abbrev ServiceTable := Interner String

namespace ServiceTable

/-- Entries as the code stores them: each name with its position cut to 16 bits. -/
def rows (t : ServiceTable) : List ServiceEntry :=
  t.entries.zipIdx.map fun (name, i) => ⟨UInt16.ofNat i, name⟩

theorem rows_getElem? (t : ServiceTable) (row : Nat) :
    t.rows[row]? = (t.entries[row]?).map fun name => ⟨UInt16.ofNat row, name⟩ := by
  simp only [rows, List.getElem?_map, List.getElem?_zipIdx, Option.map_map, Nat.zero_add]
  rfl

/-- `ServiceTable::get`, which indexes the entries and panics out of range. -/
def get? (t : ServiceTable) (id : UInt16) : Option ServiceEntry := t.rows[id.toNat]?

def getByName (t : ServiceTable) (name : String) : Option ServiceEntry :=
  (t.index.lookup name).bind fun id => t.rows[id.toNat]?

end ServiceTable

abbrev ConstantPool := Interner String

/-- `ConstantPool::get`, which indexes the entries and panics out of range. -/
def ConstantPool.get? (t : ConstantPool) (id : UInt16) : Option String := t.entries[id.toNat]?

structure RetryConfig where
  maxAttempts : UInt8
  strategy : RetryStrategy
  fixedMs : UInt32
  deriving Repr, DecidableEq

structure ChunkConfig where
  count : UInt8
  mode : ChunkMode
  deriving Repr, DecidableEq

structure DAGNode where
  serviceId : UInt16
  layer : UInt8
  parentIds : List UInt16
  deriving Repr, DecidableEq

inductive DAGFailurePolicy where
  | abortAll
  | continueOthers
  | skipDependents
  deriving Repr, DecidableEq

inductive MergeStrategy where
  | lastWins
  | arrayConcat
  | deepMerge
  | explicitMap
  deriving Repr, DecidableEq

structure DAGTable where
  nodes : List DAGNode := []
  layers : List (List UInt16) := []
  terminalNodes : List UInt16 := []
  failurePolicy : DAGFailurePolicy := .abortAll
  nodeTimeouts : List UInt32 := []
  mergeStrategy : MergeStrategy := .lastWins
  deriving Repr, DecidableEq

inductive ResolvedType where
  | string
  | integer
  | float
  | boolean
  | object
  | array
  | enum (variants : List String)
  | null
  | any
  deriving Repr, DecidableEq

namespace ResolvedType

def supportsOrdering : ResolvedType → Bool
  | .integer | .float | .string => true
  | _ => false

def supportsContains : ResolvedType → Bool
  | .string | .array => true
  | _ => false

end ResolvedType

structure FieldSchema where
  name : String
  type : ResolvedType
  required : Bool
  deriving Repr, DecidableEq

structure Schema where
  fields : List FieldSchema
  deriving Repr, DecidableEq

def Schema.fieldType (schema : Schema) (name : String) : Option ResolvedType :=
  (schema.fields.find? (·.name = name)).map (·.type)

structure ExecutionPlan where
  ruleId : String
  version : UInt64
  instrCount : UInt32
  complexityScore : UInt32
  instructions : List Instruction
  constPool : ConstantPool
  services : ServiceTable
  dagTables : List DAGTable
  retryConfigs : List RetryConfig
  chunkConfigs : List ChunkConfig
  schema : Option Schema

namespace ExecutionPlan

def new (ruleId : String) : ExecutionPlan where
  ruleId := ruleId
  version := 1
  instrCount := 0
  complexityScore := 0
  instructions := []
  constPool := Interner.empty
  services := Interner.empty
  dagTables := []
  retryConfigs := []
  chunkConfigs := []
  schema := none

def withSchema (plan : ExecutionPlan) (schema : Option Schema) : ExecutionPlan :=
  { plan with schema := schema }

def addInstr (plan : ExecutionPlan) (instr : Instruction) : ExecutionPlan :=
  { plan with
    instructions := plan.instructions ++ [instr]
    instrCount := UInt32.ofNat (plan.instructions.length + 1) }

theorem foldl_addInstr (instrs : List Instruction) : ∀ plan : ExecutionPlan, ∃ n, instrs.foldl addInstr plan =
      { plan with instructions := plan.instructions ++ instrs, instrCount := n } := by
  induction instrs with
  | nil => intro plan; exact ⟨plan.instrCount, by simp⟩
  | cons instr rest ih =>
    intro plan
    obtain ⟨n, equal⟩ := ih (plan.addInstr instr)
    refine ⟨n, ?_⟩
    rw [List.foldl_cons, equal]
    simp [addInstr]

end ExecutionPlan

end FlowRulZ
