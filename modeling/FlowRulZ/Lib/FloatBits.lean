import FlowRulZ.Lib.Float64

/-! # The bits of a float

A float as its 64 bits, with the sign of a zero, and the functions that programs have on floats.
-/

namespace Float64

def isNegative (bits : UInt64) : Bool := 2 ^ 63 ≤ bits.toNat

def ofBits (bits : UInt64) : XRat :=
  let exponent : Nat := bits.toNat / 2 ^ 52 % 2 ^ 11
  let fraction : Nat := bits.toNat % 2 ^ 52
  if exponent = 2047 then if fraction = 0 then .inf (isNegative bits) else .nan
  else
    let magnitude : ℚ :=
      if exponent = 0 then fraction * 2 ^ (-1074 : ℤ) else (2 ^ 52 + fraction) * 2 ^ ((exponent : ℤ) - 1075)
    .fin (if isNegative bits then -magnitude else magnitude)

def toBits (negative : Bool) : XRat → UInt64
  | .nan => 0x7FF8000000000000
  | .inf false => 0x7FF0000000000000
  | .inf true => 0xFFF0000000000000
  | .fin q =>
    let sign : Nat := if q < 0 ∨ q = 0 ∧ negative then 2 ^ 63 else 0
    let significand := ⌊|q| / 2 ^ ulp q⌋.toNat
    UInt64.ofNat (sign +
      if significand < 2 ^ 52 then significand else (ulp q + 1075).toNat * 2 ^ 52 + (significand - 2 ^ 52))

/-- `str::parse`. -/
def parseBits (s : String) : Option UInt64 := (parse s).map (toBits (s.toList.head? = some '-'))

theorem parseBits_letter {s : String} {c : Char} {rest : List Char} (whole : s.toList = c :: rest)
    (sign : c ≠ '+' ∧ c ≠ '-' ∧ c ≠ '.') (digit : c.isDigit = false) (name : c.toLower ≠ 'i' ∧ c.toLower ≠ 'n') :
    parseBits s = none := by
  have unsigned : Literal.unsigned (c :: rest) = none := by
    simp [Literal.unsigned, Literal.number, digit, name, List.takeWhile, List.dropWhile, sign]
  have literal : Literal.parse s = none := by
    rw [Literal.parse, whole]
    split
    · next same => exact absurd (List.cons.inj same).1 sign.1
    · next same => exact absurd (List.cons.inj same).1 sign.2.1
    · exact unsigned
  rw [parseBits, parse, literal]
  rfl

def ofInt (n : ℤ) : UInt64 := toBits false (round (.fin n))

def isFinite (bits : UInt64) : Bool := bits.toNat / 2 ^ 52 % 2 ^ 11 ≠ 2047

def abs (bits : UInt64) : UInt64 := UInt64.ofNat (bits.toNat % 2 ^ 63)

def integral (f : ℚ → ℤ) (bits : UInt64) : UInt64 :=
  match ofBits bits with
  | .fin q => toBits (isNegative bits) (.fin (f q))
  | _ => bits

def floor : UInt64 → UInt64 := integral fun q => ⌊q⌋

def ceil : UInt64 → UInt64 := integral fun q => ⌈q⌉

/-- The nearest integer, of two the one further from 0. -/
def roundAway : UInt64 → UInt64 := integral fun q => if q < 0 then -⌊1 / 2 - q⌋ else ⌊q + 1 / 2⌋

/-- The smaller one; not-a-number gives way. -/
def min (a b : UInt64) : UInt64 :=
  if ofBits a = .nan then b else if (ofBits b).lt (ofBits a) then b else a

def max (a b : UInt64) : UInt64 :=
  if ofBits a = .nan then b else if (ofBits a).lt (ofBits b) then b else a

/-- The cast to an unsigned integer of 64 bits, which saturates. -/
def toUsize (bits : UInt64) : Nat :=
  match ofBits bits with
  | .fin q => Nat.min ⌊q⌋.toNat (2 ^ 64 - 1)
  | .inf false => 2 ^ 64 - 1
  | _ => 0

def hasFraction (bits : UInt64) : Bool :=
  match ofBits bits with
  | .fin q => q ≠ ⌊q⌋
  | _ => false

example : parseBits "0.1" = some 0x3FB999999999999A := by decide +kernel
example : parseBits "-0" = some 0x8000000000000000 := by decide +kernel
example : ofBits 0x3FF8000000000000 = .fin (3 / 2) := by decide +kernel
example : roundAway 0xC004000000000000 = 0xC008000000000000 := by decide +kernel
example : toUsize 0xBFF0000000000000 = 0 := by decide +kernel
example : ofInt 9007199254740993 = 0x4340000000000000 := by decide +kernel

end Float64
