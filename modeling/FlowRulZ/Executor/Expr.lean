import FlowRulZ.Executor.Builtins
import FlowRulZ.Executor.FieldPaths

/-! # Map expressions

`eval_map_expression` assigns the value of an expression to a field of the body.  The parser looks at the
whole text first: quotation marks around it, a number, a call, a sum, and at last a field.
-/

namespace FlowRulZ

inductive Expr where
  | field (path : String)
  | fnCall (name : String) (args : List Expr)
  | concat (parts : List Expr)
  | literal (s : String)
  | number (bits : UInt64)
  | raw (s : String)

namespace Expr

def argText (part : Option String) : Except (Fault String) (List String) :=
  (inBounds part).map fun part => if (Text.trim part).isEmpty then [] else [Text.trim part]

def deeper (depth : Int) (c : Char) : Int := if c = '(' then depth + 1 else if c = ')' then depth - 1 else depth

/-- The loop of `parse_args`, up to where it parses the parts: the position, the start of the part, the depth of
parentheses, and the quotation mark that is open. A mark that opens at the very end loses its part. -/
def argTextsLoop (input : String) : List Char → Nat → Nat → Int → Option Char → Except (Fault String) (List String)
  | [], _, _, _, _ => .ok []
  | c :: rest, pos, start, depth, some quote =>
    if rest.isEmpty then argText (Text.sliceFrom input start)
    else argTextsLoop input rest (pos + c.utf8Size) start depth (if c = quote then none else some quote)
  | c :: rest, pos, start, depth, none =>
    if c = '\'' ∨ c = '"' then argTextsLoop input rest (pos + c.utf8Size) start depth (some c)
    else if c = ',' ∧ deeper depth c = 0 ∨ rest.isEmpty then do
      let part ← argText (Text.slice input start (if rest.isEmpty then pos + c.utf8Size else pos))
      let parts ← argTextsLoop input rest (pos + c.utf8Size) (pos + c.utf8Size) (deeper depth c) none
      return part ++ parts
    else argTextsLoop input rest (pos + c.utf8Size) start (deeper depth c) none

def argTexts (input : String) : Except (Fault String) (List String) := argTextsLoop input input.toList 0 0 0 none

inductive Shape where
  | literal (s : String)
  | number (bits : UInt64)
  | call (name : String) (parts : List String)
  | sum (parts : List String)
  | field (path : String)
  | raw (s : String)

def Shape.parts : Shape → List String
  | .call _ parts | .sum parts => parts
  | _ => []

def inner (input : String) : Except (Fault String) String := inBounds (Text.slice input 1 (Text.len input - 1))

/-- A text that ends with a parenthesis, with its first one at `open`. -/
def callShape (input : String) (opening : Nat) : Except (Fault String) Shape := do
  let name ← inBounds (Text.sliceTo input opening)
  let argsStr ← inBounds (Text.slice input (opening + 1) (Text.len input - 1))
  let parts ← if (Text.trim argsStr).isEmpty then .ok [] else argTexts argsStr
  return .call (Text.trim name) parts

def sumParts (input : String) : Option (List String) :=
  if Text.contains input '+' && !Text.startsWith input "+" then
    let parts := Text.split input '+'
    if parts.all fun part => !Text.contains part '(' && !Text.contains part ')' then some (parts.map Text.trim) else none
  else none

def isFieldChar (platform : Platform) (c : Char) : Bool := platform.isAlphanumeric c || c = '_' || c = '.'

def isValidField (platform : Platform) (s : String) : Bool := !s.isEmpty && s.toList.all (isFieldChar platform)

/-- The position of the first parenthesis, if the text ends with one. -/
def opening (input : String) : Option Nat := if Text.endsWith input ")" then Text.find input "(" else none

/-- `parse_expr` up to where it parses the parts. -/
def shape (platform : Platform) (text : String) : Except (Fault String) Shape :=
  let input := Text.trim text
  if Text.startsWith input "\"" && Text.endsWith input "\"" then (inner input).map .literal
  else if Text.startsWith input "'" && Text.endsWith input "'" then (inner input).map .literal
  else
    match Float64.parseBits input, opening input, sumParts input with
    | some bits, _, _ => .ok (.number bits)
    | none, some opening, _ => callShape input opening
    | none, none, some parts => .ok (.sum parts)
    | none, none, none => .ok (if isValidField platform input then .field input else .raw input)

def Shape.build : Shape → List Expr → Expr
  | .literal s, _ => .literal s
  | .number bits, _ => .number bits
  | .call name _, args => .fnCall name args
  | .sum _, parts => .concat parts
  | .field path, _ => .field path
  | .raw s, _ => .raw s

/-- `parse_expr` with a bound for the depth of its recursion. -/
def parseWithin (platform : Platform) : Nat → String → Except (Fault String) Expr
  | 0, _ => .error .panic
  | depth + 1, text => do
    let found ← shape platform text
    let parts ← found.parts.mapM (parseWithin platform depth)
    return found.build parts

/-- `parse_expr`; the parts of a text are shorter than the text. -/
def parse (platform : Platform) (text : String) : Except (Fault String) Expr := parseWithin platform (text.length + 1) text

mutual

def eval (host : Host) (platform : Platform) (body : Json) : Expr → Nat → Evaluated Json
  | .field path, moment => ((resolveField body path).mapError .err, moment)
  | .fnCall name args, moment =>
    match evalAll host platform body args moment with
    | (.error e, moment) => (.error e, moment)
    | (.ok values, moment) => (callBuiltin host platform moment name values, moment + 1)
  | .concat parts, moment =>
    match evalAll host platform body parts moment with
    | (.error e, moment) => (.error e, moment)
    | (.ok values, moment) => (.ok (.str (String.join (values.map (valueToString host)))), moment)
  | .literal s, moment => (.ok (.str s), moment)
  | .number bits, moment => (.ok (numberOr (.num (.posInt 0)) bits), moment)
  | .raw s, moment => (.ok (.str s), moment)

def evalAll (host : Host) (platform : Platform) (body : Json) : List Expr → Nat → Evaluated (List Json)
  | [], moment => (.ok [], moment)
  | expr :: exprs, moment =>
    match eval host platform body expr moment with
    | (.error e, moment) => (.error e, moment)
    | (.ok value, moment) =>
      match evalAll host platform body exprs moment with
      | (.error e, moment) => (.error e, moment)
      | (.ok values, moment) => (.ok (value :: values), moment)

end

end Expr

def assignment (exprStr : String) : Except (Fault String) (String × String) :=
  match Text.find exprStr "=" with
  | none => .error (.err "not an assignment expression (missing =)")
  | some eqPos => do
    let dest ← inBounds (Text.sliceTo exprStr eqPos)
    let source ← inBounds (Text.sliceFrom exprStr (eqPos + 1))
    if (Text.trim dest).isEmpty || (Text.trim source).isEmpty then
      .error (.err "empty target or source in map expression")
    else return (Text.trim dest, Text.trim source)

def bodyJson (host : Host) (body : Bytes) : Except (Fault String) Json :=
  match Utf8.fromUtf8 body with
  | .error e => .error (.err ("invalid utf8: " ++ e))
  | .ok _ => (host.fromSlice body).mapError fun e => .err ("invalid json: " ++ e)

def assign (host : Host) (platform : Platform) (dest source : String) (body : Json) : Except (Fault String) Bytes := do
  let expr ← Expr.parse platform source
  let value ← (expr.eval host platform body 0).1
  let result ← (setField body dest value).mapError .err
  return host.toVec result

def evalMapExpression (host : Host) (platform : Platform) (exprStr : String) (body : Bytes) :
    Except (Fault String) Bytes := do
  let target ← assignment exprStr
  let value ← bodyJson host body
  assign host platform target.1 target.2 value

/-- A host that evaluates map expressions itself. -/
def Host.evaluating (host : Host) (platform : Platform) : Host :=
  { host with evalMapExpression := FlowRulZ.evalMapExpression host platform }

end FlowRulZ
