import FlowRulZ.Bytecode.Plan
import FlowRulZ.Lib.Utf8

/-! # JSON values

`serde_json::Value` with its object map, which is ordered by key.  Reading and printing
of JSON text and plugins are not embedded: a `Host` provides them, and it may evaluate map
expressions in any way.
-/

namespace FlowRulZ

/-- `serde_json::Number`; a float by its bits. -/
inductive JsonNumber where
  | posInt (n : UInt64)
  | negInt (n : Int64)
  | float (bits : UInt64)
  deriving Repr, DecidableEq

inductive Json where
  | null
  | bool (b : Bool)
  | num (n : JsonNumber)
  | str (s : String)
  | arr (items : List Json)
  | obj (fields : List (String × Json))

namespace Json

abbrev Fields := List (String × Json)

def Fields.get? (fields : Fields) (key : String) : Option Json := fields.lookup key

/-- `Map::insert`: in key order, over an old value of the key. -/
def Fields.insert (key : String) (value : Json) : Fields → Fields
  | [] => [(key, value)]
  | (k, v) :: rest =>
    if key < k then (key, value) :: (k, v) :: rest
    else if key = k then (key, value) :: rest
    else (k, v) :: Fields.insert key value rest

def isObject : Json → Bool
  | .obj _ => true
  | _ => false

mutual

/-- `deep_merge`: objects field by field, anything else is replaced. -/
def deepMerge : Json → Json → Json
  | .obj a, .obj b => .obj (mergeFields a b)
  | _, b => b

def mergeFields (a : Fields) : Fields → Fields
  | [] => a
  | (k, v) :: rest =>
    if v.isObject then
      mergeFields (a.insert k (deepMerge ((a.get? k).getD (.obj [])) v)) rest
    else mergeFields (a.insert k v) rest

end

end Json

def ResolvedType.check (type : ResolvedType) (value : Json) : Bool :=
  match type, value with
  | .string, .str _ => true
  | .integer, .num (.posInt _) | .integer, .num (.negInt _) => true
  | .float, .num (.float _) => true
  | .boolean, .bool _ => true
  | .object, .obj _ => true
  | .array, .arr _ => true
  | .enum variants, .str s => s ∈ variants
  | .null, .null => true
  | .any, _ => true
  | _, _ => false

/-- What the executor calls and this model leaves open. -/
structure Host where
  /-- `serde_json::from_slice`, with the text of its error -/
  fromSlice : Bytes → Except String Json
  /-- `Value::to_string` -/
  jsonText : Json → String
  /-- `{:?}` of a type and of a value -/
  debugType : ResolvedType → String
  debugJson : Json → String
  callPlugin : String → Bytes → Except String Bytes
  evalMapExpression : String → Bytes → Except (Fault String) Bytes

/-- A host that reads no JSON and has no plugins. -/
def Host.mute : Host where
  fromSlice _ := .error "expected value"
  jsonText _ := "null"
  debugType _ := ""
  debugJson _ := ""
  callPlugin _ _ := .error "not found"
  evalMapExpression _ body := .ok body

def braces : Bytes := [0x7B, 0x7D]

/-- A host that reads the empty object. -/
def Host.blank : Host := { Host.mute with
  fromSlice := fun bytes => if bytes = braces then .ok (.obj []) else .error "expected value" }

def Host.toVec (host : Host) (value : Json) : Bytes := Utf8.encode (host.jsonText value)

/-- `from_slice`, or the text as a string value. -/
def Host.valueOrText (host : Host) (bytes : Bytes) : Json :=
  match host.fromSlice bytes with
  | .ok value => value
  | .error _ => .str (Utf8.fromUtf8Lossy bytes)

/-- Arrays and objects are nested at most so deep. -/
def Json.Within : Nat → Json → Prop
  | n + 1, .arr items => ∀ item ∈ items, item.Within n
  | n + 1, .obj fields => ∀ field ∈ fields, field.2.Within n
  | 0, .arr _ | 0, .obj _ => False
  | _, _ => True

/-- A value that is printed is read back, unless it is nested deeper than `serde_json` reads. -/
def Host.ReadsBack (host : Host) (value : Json) : Prop :=
  value.Within 127 → host.fromSlice (host.toVec value) = .ok value

def Schema.isValid (host : Host) (schema : Schema) (body : Json) : Except String Unit :=
  match body with
  | .obj fields =>
    schema.fields.foldlM (fun _ field =>
      match Json.Fields.get? fields field.name with
      | none =>
        if field.required then .error s!"missing required field '{field.name}'" else .ok ()
      | some value =>
        if field.type.check value then .ok ()
        else .error (s!"field '{field.name}' expected {host.debugType field.type}, " ++
          s!"got {host.debugJson value}")) ()
  | _ => .error "body is not an object"

/-- What a field may have: nothing, unless it is required, or a value of its type. -/
def FieldSchema.Admits (field : FieldSchema) : Option Json → Prop
  | none => field.required = false
  | some value => field.type.check value = true

/-- A body is valid if each field admits what it has. -/
theorem Schema.isValid_iff {host : Host} {schema : Schema} {fields : Json.Fields} :
    schema.isValid host (.obj fields) = .ok () ↔ ∀ field ∈ schema.fields, field.Admits (fields.get? field.name) := by
  obtain ⟨checks⟩ := schema
  unfold isValid
  dsimp only
  induction checks with
  | nil => simp [pure, Except.pure]
  | cons field checks ih =>
    rw [List.foldlM_cons, List.forall_mem_cons]
    cases found : fields.get? field.name with
    | none =>
      cases required : field.required with
      | true => simp [FieldSchema.Admits, required, bind, Except.bind]
      | false => simpa [FieldSchema.Admits, required, bind, Except.bind] using ih
    | some value =>
      cases fits : field.type.check value with
      | true => simpa [FieldSchema.Admits, fits, bind, Except.bind] using ih
      | false => simp [FieldSchema.Admits, fits, bind, Except.bind]

end FlowRulZ
