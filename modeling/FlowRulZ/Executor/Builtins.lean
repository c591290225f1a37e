import FlowRulZ.Executor.Json
import FlowRulZ.Lib.Chunks
import FlowRulZ.Lib.FloatBits
import FlowRulZ.Lib.Slices

/-! # The functions of map expressions

A function takes the values of its arguments.  Three of them also ask the platform for the time or for
random bits; they get what it has at the moment of the call.
-/

namespace FlowRulZ

/-- What map expressions take from the platform. A moment is the number of calls made before. -/
structure Platform where
  isAlphanumeric : Char → Bool
  toLowercase : String → String
  toUppercase : String → String
  /-- `DefaultHasher` -/
  hash : String → UInt64
  /-- `Uuid::new_v4` -/
  uuid : Nat → String
  /-- seconds and nanoseconds since the epoch -/
  now : Nat → Nat × Nat
  /-- the same as a float -/
  epoch : Nat → UInt64
  alphanumeric_ascii : ∀ c : Char, c.toNat < 128 → isAlphanumeric c = c.isAlphanum
  alphanumeric_dark : ∀ c : Char, Text.isWhitespace c = true → isAlphanumeric c = false

/-- A platform that knows the letters of ASCII only, and whose clock stands still. -/
def Platform.ascii : Platform where
  isAlphanumeric := Char.isAlphanum
  toLowercase := fun s => String.ofList (s.toList.map Char.toLower)
  toUppercase := fun s => String.ofList (s.toList.map Char.toUpper)
  hash := fun _ => 0
  uuid := fun _ => "00000000-0000-4000-8000-000000000000"
  now := fun _ => (0, 0)
  epoch := fun _ => 0
  alphanumeric_ascii := fun _ _ => rfl
  alphanumeric_dark := fun _ blank => Text.isAlphanum_of_isWhitespace blank

abbrev Evaluated (α : Type) := Except (Fault String) α × Nat

namespace JsonNumber

def fromF64 (bits : UInt64) : Option JsonNumber := if Float64.isFinite bits then some (.float bits) else none

def asF64 : JsonNumber → UInt64
  | .posInt n => Float64.ofInt n.toNat
  | .negInt n => Float64.ofInt n.toInt
  | .float bits => bits

/-- `Number::from` of an `i64`. -/
def fromI64 (n : Int) : JsonNumber := if n < 0 then .negInt (Int64.ofInt n) else .posInt (UInt64.ofNat n.toNat)

/-- Equality, where a float is equal to one of the same value. -/
def same : JsonNumber → JsonNumber → Bool
  | .posInt m, .posInt n => m = n
  | .negInt m, .negInt n => m = n
  | .float a, .float b => Float64.ofBits a = Float64.ofBits b
  | _, _ => false

end JsonNumber

namespace Json

def isNull : Json → Bool
  | .null => true
  | _ => false

mutual

def same : Json → Json → Bool
  | .null, .null => true
  | .bool a, .bool b => a = b
  | .num m, .num n => m.same n
  | .str s, .str t => s = t
  | .arr a, .arr b => sameItems a b
  | .obj a, .obj b => sameFields a b
  | _, _ => false

def sameItems : List Json → List Json → Bool
  | [], [] => true
  | a :: as, b :: bs => same a b && sameItems as bs
  | _, _ => false

def sameFields : List (String × Json) → List (String × Json) → Bool
  | [], [] => true
  | (j, a) :: as, (k, b) :: bs => j = k && same a b && sameFields as bs
  | _, _ => false

end

end Json

def base64Alphabet : List Char := "ABCDEFGHIJKLMNOPQRSTUVWXYZabcdefghijklmnopqrstuvwxyz0123456789+/".toList

/-- The letter of six bits; an index behind the table panics. -/
def base64Letter (n : Nat) : Option Char := base64Alphabet[n]?

def base64Group : Bytes → Option (List Char)
  | [] => none
  | b0 :: rest => do
    let b1 := (rest[0]?).getD 0
    let b2 := (rest[1]?).getD 0
    let triple := b0.toNat * 2 ^ 16 + b1.toNat * 2 ^ 8 + b2.toNat
    let first ← base64Letter (triple / 2 ^ 18 % 64)
    let second ← base64Letter (triple / 2 ^ 12 % 64)
    let third ← if 0 < rest.length then base64Letter (triple / 2 ^ 6 % 64) else some '='
    let fourth ← if 1 < rest.length then base64Letter (triple % 64) else some '='
    return [first, second, third, fourth]

/-- `base64_encode` on the bytes of a text; `none` if it panics. -/
def base64Letters (bytes : Bytes) : Option (List Char) := ((Chunks.chunks 3 bytes).mapM base64Group).map List.flatten

def base64Encode (s : String) : Option String := (base64Letters (Utf8.encode s)).map String.ofList

def base64Value (b : UInt8) : Except String Nat :=
  match base64Alphabet.idxOf? (Char.ofNat b.toNat) with
  | some n => .ok n
  | none => .error ("base64_decode: invalid character '" ++ String.singleton (Char.ofNat b.toNat) ++ "'")

def base64Bytes (letters : Bytes) : Except String Bytes := do
  let values ← letters.mapM base64Value
  let bits := 6 * values.length
  let buf := values.foldl (fun buf value => buf * 2 ^ 6 + value) 0
  return (List.range (bits / 8)).map fun i => UInt8.ofNat (buf / 2 ^ (bits - 8 * (i + 1)))

def decodeBase64 (s : String) : Except String Bytes := do
  let groups ← (Chunks.chunks 4 (Utf8.encode (Text.trimEndMatches s '='))).mapM base64Bytes
  return groups.flatten

/-- Year, month and day of a day since the epoch, as `now_iso` computes them. -/
def civilDate (days : Nat) : Int × Int × Int :=
  let z : Int := days + 719468
  let era := (if 0 ≤ z then z else z - 146096).tdiv 146097
  let doe := z - era * 146097
  let yoe := (doe - doe.tdiv 1460 + doe.tdiv 36524 - doe.tdiv 146096).tdiv 365
  let y := yoe + era * 400
  let doy := doe - (365 * yoe + yoe.tdiv 4 - yoe.tdiv 100)
  let mp := (5 * doy + 2).tdiv 153
  let d := doy - (153 * mp + 2).tdiv 5 + 1
  let m := if mp < 10 then mp + 3 else mp - 9
  (if m ≤ 2 then y + 1 else y, m, d)

def nowIso (secs nanos : Nat) : String :=
  let date := civilDate (secs / 86400)
  let time := secs % 86400
  Text.padded 4 date.1.toNat ++ "-" ++ Text.padded 2 date.2.1.toNat ++ "-" ++ Text.padded 2 date.2.2.toNat ++ "T" ++
    Text.padded 2 (time / 3600) ++ ":" ++ Text.padded 2 (time % 3600 / 60) ++ ":" ++ Text.padded 2 (time % 60) ++ "." ++
    Text.padded 9 nanos ++ "Z"

example : nowIso 1709210096 5 = "2024-02-29T12:34:56.000000005Z" := by decide

/-- The digits of `str::parse` for an `i64`, up to the first that is none or leaves the range. -/
def parseDigits (negative : Bool) : Int → List Char → Except String Int
  | n, [] => .ok n
  | n, c :: rest =>
    if !c.isDigit then .error "invalid digit found in string"
    else
      let digit : Int := c.toNat - 48
      let next := if negative then 10 * n - digit else 10 * n + digit
      if next < -2 ^ 63 then .error "number too small to fit in target type"
      else if 2 ^ 63 ≤ next then .error "number too large to fit in target type"
      else parseDigits negative next rest

/-- `str::parse` for an `i64`. -/
def parseI64 (s : String) : Except String Int :=
  match s.toList with
  | [] => .error "cannot parse integer from empty string"
  | ['+'] | ['-'] => .error "invalid digit found in string"
  | '+' :: digits => parseDigits false 0 digits
  | '-' :: digits => parseDigits true 0 digits
  | digits => parseDigits false 0 digits

variable (host : Host)

def valueToString : Json → String
  | .str s => s
  | .null => "null"
  | value => host.jsonText value

def argAsStr (args : List Json) (i : Nat) : String := ((args[i]?).map (valueToString host)).getD ""

def argAsF64 (args : List Json) (i : Nat) : Option UInt64 :=
  match args[i]? with
  | some (.num n) => some n.asF64
  | some (.str s) => Float64.parseBits s
  | _ => none

def need {α : Type} (message : String) : Option α → Except (Fault String) α
  | some a => .ok a
  | none => .error (.err message)

/-- A slice or an index panics if it is out of bounds. -/
def inBounds {α : Type} : Option α → Except (Fault String) α
  | some a => .ok a
  | none => .error .panic

def numberOr (other : Json) (bits : UInt64) : Json := ((JsonNumber.fromF64 bits).map .num).getD other

/-- The names that `call_builtin` knows. -/
inductive Builtin where
  | abs | round | ceil | floor | min | max
  | lower | upper | trim | length | concat | substring | replace | split | base64 | base64Decode
  | toString | parseInt | parseFloat | parseBool | json
  | contains | keys | merge
  | uuid | now | epoch | coalesce | default | hash | typeof
  deriving Repr, DecidableEq

namespace Builtin

def names : List (String × Builtin) :=
  [("abs", abs), ("round", round), ("ceil", ceil), ("floor", floor), ("min", min), ("max", max), ("lower", lower),
    ("upper", upper), ("trim", trim), ("length", length), ("concat", concat), ("substring", substring),
    ("replace", replace), ("split", split), ("base64", base64), ("base64_decode", base64Decode),
    ("to_string", toString), ("parse_int", parseInt), ("parse_float", parseFloat), ("parse_bool", parseBool),
    ("json", json), ("contains", contains), ("keys", keys), ("merge", merge), ("uuid", uuid), ("now", now),
    ("epoch", epoch), ("coalesce", coalesce), ("default", default), ("hash", hash), ("typeof", typeof)]

def unary (name : String) (other : Json) (f : UInt64 → UInt64) (args : List Json) : Except (Fault String) Json := do
  let n ← need (name ++ ": expected number") (argAsF64 args 0)
  return numberOr other (f n)

def binary (name : String) (f : UInt64 → UInt64 → UInt64) (args : List Json) : Except (Fault String) Json := do
  let a ← need (name ++ ": expected number") (argAsF64 args 0)
  let b ← need (name ++ ": expected number") (argAsF64 args 1)
  return numberOr .null (f a b)

def start (args : List Json) : Nat := ((argAsF64 args 1).map Float64.toUsize).getD 0

/-- Where `substring` stops; the length of the text becomes a float on the way. -/
def stop (args : List Json) : Nat :=
  let s := argAsStr host args 0
  Nat.min (((argAsF64 args 2).map Float64.toUsize).getD (Float64.toUsize (Float64.ofInt (Text.len s)))) (Text.len s)

/-- The slice of `substring`; `none` if it panics. -/
def slice (args : List Json) : Option String := Text.slice (argAsStr host args 0) (start args) (stop host args)

def typeName : Json → String
  | .null => "null"
  | .bool _ => "bool"
  | .num (.float bits) => if Float64.hasFraction bits then "float" else "int"
  | .num _ => "int"
  | .str _ => "string"
  | .arr _ => "array"
  | .obj _ => "object"

def call (platform : Platform) (moment : Nat) (args : List Json) : Builtin → Except (Fault String) Json
  | abs => unary "abs" .null Float64.abs args
  | round => unary "round" (.num (.posInt 0)) Float64.roundAway args
  | ceil => unary "ceil" (.num (.posInt 0)) Float64.ceil args
  | floor => unary "floor" (.num (.posInt 0)) Float64.floor args
  | min => binary "min" Float64.min args
  | max => binary "max" Float64.max args
  | lower => .ok (.str (platform.toLowercase (argAsStr host args 0)))
  | upper => .ok (.str (platform.toUppercase (argAsStr host args 0)))
  | trim => .ok (.str (Text.trim (argAsStr host args 0)))
  | length => .ok (.num (.posInt (UInt64.ofNat (Text.len (argAsStr host args 0)))))
  | concat => .ok (.str (String.join (args.map (valueToString host))))
  | substring => (inBounds (slice host args)).map .str
  | replace => .ok (.str (Text.replace (argAsStr host args 0) (argAsStr host args 1) (argAsStr host args 2)))
  | split =>
    let s := argAsStr host args 0
    let delim := argAsStr host args 1
    if delim.isEmpty then .ok (.arr (s.toList.map fun c => .str (String.singleton c)))
    else .ok (.arr ((Text.splitStr s delim).map .str))
  | base64 => (inBounds (base64Encode (argAsStr host args 0))).map .str
  | base64Decode =>
    match decodeBase64 (argAsStr host args 0) with
    | .error e => .error (.err e)
    | .ok bytes =>
      match Utf8.fromUtf8 bytes with
      | .ok s => .ok (.str s)
      | .error _ => .ok .null
  | toString => .ok (.str (valueToString host ((args[0]?).getD .null)))
  | parseInt =>
    match parseI64 (argAsStr host args 0) with
    | .ok n => .ok (.num (.fromI64 n))
    | .error e => .error (.err ("parse_int error: " ++ e))
  | parseFloat =>
    let s := argAsStr host args 0
    match Float64.parseBits s with
    | some bits => .ok (numberOr .null bits)
    | none => .error (.err ("parse_float error: " ++
        if s.isEmpty then "cannot parse float from empty string" else "invalid float literal"))
  | parseBool =>
    let s := platform.toLowercase (argAsStr host args 0)
    if s = "true" ∨ s = "1" ∨ s = "yes" then .ok (.bool true)
    else if s = "false" ∨ s = "0" ∨ s = "no" then .ok (.bool false)
    else .error (.err ("parse_bool: cannot parse '" ++ s ++ "'"))
  | json => (host.fromSlice (Utf8.encode (argAsStr host args 0))).mapError fun e => .err ("json parse error: " ++ e)
  | contains => do
    let list ← need "contains: missing list arg" args[0]?
    let value ← need "contains: missing value arg" args[1]?
    match list with
    | .arr items => .ok (.bool (items.any (Json.same · value)))
    | _ => .error (.err "contains: first arg must be an array")
  | keys => do
    let object ← need "keys: missing object arg" args[0]?
    match object with
    | .obj fields => .ok (.arr (fields.map fun field => .str field.1))
    | _ => .error (.err "keys: arg must be an object")
  | merge => do
    let a ← need "merge: missing first arg" args[0]?
    let b ← need "merge: missing second arg" args[1]?
    return a.deepMerge b
  | uuid => .ok (.str (platform.uuid moment))
  | now => .ok (.str (nowIso (platform.now moment).1 (platform.now moment).2))
  | epoch => .ok (numberOr (.num (.posInt 0)) (platform.epoch moment))
  | coalesce => .ok ((args.find? fun value => !value.isNull).getD .null)
  | default => .ok (((args[0]?).filter fun value => !value.isNull).getD ((args[1]?).getD .null))
  | hash => .ok (.num (.posInt (platform.hash (argAsStr host args 0))))
  | typeof => do
    let value ← need "typeof: missing arg" args[0]?
    return .str (typeName value)

end Builtin

def callBuiltin (platform : Platform) (moment : Nat) (name : String) (args : List Json) : Except (Fault String) Json :=
  match Builtin.names.lookup name with
  | some f => f.call host platform moment args
  | none => .error (.err ("unknown function: " ++ name))

end FlowRulZ
