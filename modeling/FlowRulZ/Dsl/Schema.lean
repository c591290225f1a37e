import FlowRulZ.Bytecode.Plan
import FlowRulZ.Lib.Text

/-! # Schemas and static checks

Reading a schema from its text and checking gates and maps against it.  What the
compiler takes from its platform is a parameter: Unicode case mapping, the escapes
of Rust's debug format, and the order in which a hash map is iterated.
-/

namespace FlowRulZ

inductive CompileError where
  | dagCycle (body : String)
  | dagEmpty (body : String)
  | dagUnknownService (name : String)
  | duplicateLabel (name : String)
  | schemaParseError (message : String)
  | typeMismatch (message : String)
  deriving Repr, DecidableEq

/-- The compiler is a stateless value in the source. Here it carries the choices of the platform it runs on;
`dependencyOrder` and `degreeOrder` are the iteration orders of the two hash maps that are iterated, as permutations of
the keys. -/
structure Compiler where
  toLowercase : String → String
  debugStr : String → String
  dependencyOrder : List String → List String
  degreeOrder : List String → List String
  dependencyOrder_perm : ∀ keys, (dependencyOrder keys).Perm keys
  degreeOrder_perm : ∀ keys, (degreeOrder keys).Perm keys

namespace Compiler

/-- A platform for text in ASCII whose hash maps iterate in insertion order. -/
def ascii : Compiler where
  toLowercase := String.map Char.toLower
  debugStr s := "\"" ++ s ++ "\""
  dependencyOrder := id
  degreeOrder := id
  dependencyOrder_perm _ := .refl _
  degreeOrder_perm _ := .refl _

variable (self : Compiler)

def debugType : ResolvedType → String
  | .string => "String"
  | .integer => "Integer"
  | .float => "Float"
  | .boolean => "Boolean"
  | .object => "Object"
  | .array => "Array"
  | .enum variants => "Enum([" ++ Text.join ", " (variants.map self.debugStr) ++ "])"
  | .null => "Null"
  | .any => "Any"

def scalarType : String → Option ResolvedType
  | "string" => some .string
  | "int" => some .integer
  | "float" => some .float
  | "bool" => some .boolean
  | "object" => some .object
  | "array" => some .array
  | "null" => some .null
  | "any" => some .any
  | _ => none

/-- One comma-separated segment of a schema, already trimmed and not empty. -/
def compileField (seg : String) : Except CompileError FieldSchema :=
  let required := Text.startsWith seg "!"
  let namePart := if required then String.ofList (seg.toList.drop 1) else seg
  match Text.split namePart ':' with
  | rawName :: rawType :: _ =>
    if rawName.isEmpty || rawType.isEmpty then
      .error (.schemaParseError ("invalid field spec: '" ++ seg ++ "'"))
    else
      let name := Text.trim rawName
      let typeStr := self.toLowercase (Text.trim rawType)
      if Text.startsWith typeStr "enum[" && Text.endsWith typeStr "]" then
        let variants := ((Text.split (Text.interior typeStr 5) '|').map Text.trim).filter
          (fun v => !v.isEmpty)
        if variants.isEmpty then
          .error (.schemaParseError ("empty enum variants for field '" ++ name ++ "'"))
        else .ok ⟨name, .enum variants, required⟩
      else
        match scalarType typeStr with
        | some type => .ok ⟨name, type, required⟩
        | none =>
          .error (.schemaParseError ("unknown type '" ++ typeStr ++ "' for field '" ++ name ++ "'"))
  | _ => .error (.schemaParseError ("invalid field spec: '" ++ seg ++ "'"))

def compileFields : List String → Except CompileError (List FieldSchema)
  | [] => .ok []
  | segment :: rest =>
    let seg := Text.trim segment
    if seg.isEmpty then compileFields rest
    else
      match self.compileField seg with
      | .error e => .error e
      | .ok field =>
        match compileFields rest with
        | .error e => .error e
        | .ok fields => .ok (field :: fields)

theorem compileFields_cons (segment : String) (rest : List String) : self.compileFields (segment :: rest) =
      if (Text.trim segment).isEmpty then self.compileFields rest
      else
        match self.compileField (Text.trim segment) with
        | .error e => .error e
        | .ok field =>
          match self.compileFields rest with
          | .error e => .error e
          | .ok fields => .ok (field :: fields) := rfl

def compileSchema (body : String) : Except CompileError Schema :=
  let content := Text.trim (Text.trimEndMatches (Text.trimStartMatches body '{') '}')
  if content.isEmpty then .error (.schemaParseError "empty schema body")
  else
    match self.compileFields (Text.split content ',') with
    | .error e => .error e
    | .ok fields => .ok ⟨fields⟩

def typeCheckGate (schema : Schema) (field op : String) : Except CompileError Unit :=
  match schema.fieldType field with
  | none => .ok ()
  | some ft =>
    if op == "==" || op == "!=" then .ok ()
    else if op == ">" || op == "<" || op == ">=" || op == "<=" then
      if ft.supportsOrdering then .ok ()
      else .error (.typeMismatch ("operator '" ++ op ++
        "' requires numeric or string type, but field '" ++ field ++ "' has type " ++
        self.debugType ft))
    else if op == "contains" then
      if ft.supportsContains then .ok ()
      else .error (.typeMismatch ("operator 'contains' requires string or array type, but field '" ++ field ++
          "' has type " ++ self.debugType ft))
    else .ok ()

/-- The string check that both concatenation forms make on each of their parts. -/
def checkParts (schema : Schema) (form : String) : List String → Except CompileError Unit
  | [] => .ok ()
  | part :: rest =>
    match Text.stripPrefix (Text.trim part) "." with
    | none => checkParts schema form rest
    | some fieldName =>
      match schema.fieldType fieldName with
      | some .string | none => checkParts schema form rest
      | some ft =>
        .error (.typeMismatch (form ++ " requires string type, but field '" ++ fieldName ++
          "' has type " ++ self.debugType ft))

def typeCheckMap (schema : Schema) (expr : String) : Except CompileError Unit :=
  let rhs := match Text.splitFirst expr '=' with
    | some (_, after) => Text.trim after
    | none => Text.trim expr
  if rhs.isEmpty then .ok ()
  else
    let concat :=
      if Text.startsWith rhs "concat(" && Text.endsWith rhs ")" then
        self.checkParts schema "concat()" (Text.split (Text.interior rhs 7) ',')
      else .ok ()
    match concat with
    | .error e => .error e
    | .ok () =>
      if Text.contains rhs '+' then
        self.checkParts schema "concat '+'" (Text.split rhs '+')
      else .ok ()

end Compiler

end FlowRulZ
