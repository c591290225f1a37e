import Mathlib.Data.Int.Log
import Mathlib.Data.Rat.Floor
import Mathlib.Algebra.Order.Field.Power
import Mathlib.Tactic.Linarith
import Mathlib.Tactic.Positivity
import Mathlib.Tactic.FieldSimp
import Mathlib.Tactic.Ring

/-! # Decimal literals and 64-bit floats

A literal has an exact value: a rational, an infinity or not a number.  A float is such
a value that `Float64.round` leaves alone; the two zeros are one.
-/

/-- Rationals with infinities and not-a-number, as floats compare them. -/
inductive XRat where
  | nan
  | inf (negative : Bool)
  | fin (q : ℚ)
  deriving Repr, DecidableEq

namespace XRat

def lt : XRat → XRat → Bool
  | fin p, fin q => p < q
  | inf m, inf n => m && !n
  | inf m, fin _ => m
  | fin _, inf n => !n
  | _, _ => false

def le : XRat → XRat → Bool
  | fin p, fin q => p ≤ q
  | inf m, inf n => m || !n
  | inf m, fin _ => m
  | fin _, inf n => !n
  | _, _ => false

def sub : XRat → XRat → XRat
  | fin p, fin q => fin (p - q)
  | inf m, inf n => if m = n then nan else inf m
  | inf m, fin _ => inf m
  | fin _, inf n => inf !n
  | _, _ => nan

def abs : XRat → XRat
  | fin q => fin |q|
  | inf _ => inf false
  | nan => nan

def neg : XRat → XRat
  | fin q => fin (-q)
  | inf n => inf !n
  | nan => nan

end XRat

namespace Literal

def natOf (digits : List Char) : Nat := digits.foldl (fun n c => 10 * n + (c.toNat - 48)) 0

def digits? (cs : List Char) : Option Nat :=
  if cs ≠ [] ∧ cs.all Char.isDigit then some (natOf cs) else none

def exponent : List Char → Option ℤ
  | [] => some 0
  | c :: cs =>
    if c = 'e' ∨ c = 'E' then
      match cs with
      | '+' :: ds => (digits? ds).map Int.ofNat
      | '-' :: ds => (digits? ds).map fun n => -(n : ℤ)
      | ds => (digits? ds).map Int.ofNat
    else none

/-- A number without sign: digits with at most one point among them, then an exponent. -/
def number (cs : List Char) : Option ℚ :=
  let whole := cs.takeWhile Char.isDigit
  match cs.dropWhile Char.isDigit with
  | '.' :: rest =>
    let frac := rest.takeWhile Char.isDigit
    if whole = [] ∧ frac = [] then none
    else (exponent (rest.dropWhile Char.isDigit)).map fun e =>
      natOf (whole ++ frac) * (10 : ℚ) ^ (e - (frac.length : ℤ))
  | rest =>
    if whole = [] then none
    else (exponent rest).map fun e => natOf whole * (10 : ℚ) ^ e

def unsigned (cs : List Char) : Option XRat :=
  if cs.map Char.toLower ∈ ["inf".toList, "infinity".toList] then some (.inf false)
  else if cs.map Char.toLower = "nan".toList then some .nan
  else (number cs).map .fin

/-- The exact value of a literal, `none` if the text is not one. -/
def parse (s : String) : Option XRat :=
  match s.toList with
  | '+' :: cs => unsigned cs
  | '-' :: cs => (unsigned cs).map XRat.neg
  | cs => unsigned cs

end Literal

namespace Float64

def roundHalfEven (q : ℚ) : ℤ :=
  if q - ⌊q⌋ < 1 / 2 then ⌊q⌋
  else if 1 / 2 < q - ⌊q⌋ then ⌊q⌋ + 1
  else if ⌊q⌋ % 2 = 0 then ⌊q⌋ else ⌊q⌋ + 1

def ulp (q : ℚ) : ℤ := max (Int.log 2 |q| - 52) (-1074)

/-- The float nearest to a value; ties go to the even significand. -/
def round : XRat → XRat
  | .fin q =>
    let v := roundHalfEven (q / 2 ^ ulp q) * (2 : ℚ) ^ ulp q
    if 2 ^ 1024 ≤ |v| then .inf (q < 0) else .fin v
  | x => x

def epsilon : XRat := .fin (2 ^ (-52 : ℤ))

def parse (s : String) : Option XRat := (Literal.parse s).map round

def sub (x y : XRat) : XRat := round (x.sub y)

example : parse "9007199254740993" = some (.fin 9007199254740992) := by decide +kernel
example : parse "0.1" = some (.fin (3602879701896397 / 36028797018963968)) := by decide +kernel
example : parse "-.5e1" = some (.fin (-5)) := by decide +kernel
example : parse "1e400" = some (.inf false) := by decide +kernel
example : parse "1e" = none := by decide +kernel

end Float64
