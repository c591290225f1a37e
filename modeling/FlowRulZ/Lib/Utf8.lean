import Mathlib.Data.List.Basic

/-! # UTF-8

Decoding of bytes.  A faulty sequence is cut at the longest start of a well-formed one,
as the Unicode standard recommends and the Rust standard library does.
-/

namespace Utf8

open List

def isContinuation (b : UInt8) : Bool := 0x80 ≤ b && b ≤ 0xBF

/-- The bytes that may come second after a lead byte of three or four bytes. -/
def secondOk (lead second : UInt8) : Bool :=
  if lead = 0xE0 then 0xA0 ≤ second && second ≤ 0xBF
  else if lead = 0xED then 0x80 ≤ second && second ≤ 0x9F
  else if lead = 0xF0 then 0x90 ≤ second && second ≤ 0xBF
  else if lead = 0xF4 then 0x80 ≤ second && second ≤ 0x8F
  else isContinuation second

def low (b : UInt8) : Nat := b.toNat % 64

/-- A piece of text: a character, a faulty sequence with its length, or the start of a sequence that the end of the text
cuts off. -/
inductive Piece where
  | char (c : Char)
  | invalid (length : Nat)
  | incomplete
  deriving Repr, DecidableEq

/-- The first piece and the bytes after it. -/
def next : List UInt8 → Option (Piece × List UInt8)
  | [] => none
  | b :: rest =>
    if b < 0x80 then some (.char (Char.ofNat b.toNat), rest)
    else if 0xC2 ≤ b && b ≤ 0xDF then
      match rest with
      | c :: more =>
        if isContinuation c then some (.char (Char.ofNat (b.toNat % 32 * 64 + low c)), more)
        else some (.invalid 1, rest)
      | [] => some (.incomplete, [])
    else if 0xE0 ≤ b && b ≤ 0xEF then
      match rest with
      | c :: d :: more =>
        if !secondOk b c then some (.invalid 1, rest)
        else if !isContinuation d then some (.invalid 2, d :: more)
        else some (.char (Char.ofNat (b.toNat % 16 * 4096 + low c * 64 + low d)), more)
      | [c] => if secondOk b c then some (.incomplete, []) else some (.invalid 1, [c])
      | [] => some (.incomplete, [])
    else if 0xF0 ≤ b && b ≤ 0xF4 then
      match rest with
      | c :: d :: e :: more =>
        if !secondOk b c then some (.invalid 1, rest)
        else if !isContinuation d then some (.invalid 2, d :: e :: more)
        else if !isContinuation e then some (.invalid 3, e :: more)
        else
          let code := b.toNat % 8 * 262144 + low c * 4096 + low d * 64 + low e
          some (.char (Char.ofNat code), more)
      | [c, d] =>
        if !secondOk b c then some (.invalid 1, [c, d])
        else if isContinuation d then some (.incomplete, []) else some (.invalid 2, [d])
      | [c] => if secondOk b c then some (.incomplete, []) else some (.invalid 1, [c])
      | [] => some (.incomplete, [])
    else some (.invalid 1, rest)

/-- The pieces of the text, at most `fuel` of them, each with its position. -/
def pieces (index : Nat) : Nat → List UInt8 → List (Nat × Piece)
  | 0, _ => []
  | fuel + 1, bytes =>
    match next bytes with
    | none => []
    | some (piece, rest) =>
      (index, piece) :: pieces (index + (bytes.length - rest.length)) fuel rest

/-- `String::from_utf8_lossy`: what is faulty becomes the replacement character. -/
def fromUtf8Lossy (bytes : List UInt8) : String :=
  String.ofList ((pieces 0 bytes.length bytes).map fun
    | (_, .char c) => c
    | _ => Char.ofNat 0xFFFD)

/-- The characters, or the text of a `Utf8Error` at the first faulty piece. -/
def collect : List (Nat × Piece) → Except String (List Char)
  | [] => .ok []
  | (_, .char c) :: rest => (collect rest).map (c :: ·)
  | (index, .invalid length) :: _ =>
    .error s!"invalid utf-8 sequence of {length} bytes from index {index}"
  | (index, .incomplete) :: _ => .error s!"incomplete utf-8 byte sequence from index {index}"

def fromUtf8 (bytes : List UInt8) : Except String String :=
  (collect (pieces 0 bytes.length bytes)).map String.ofList

def encodeChar (c : Char) : List UInt8 :=
  let n := c.toNat
  if n < 0x80 then [UInt8.ofNat n]
  else if n < 0x800 then [UInt8.ofNat (0xC0 + n / 64), UInt8.ofNat (0x80 + n % 64)]
  else if n < 0x10000 then
    [UInt8.ofNat (0xE0 + n / 4096), UInt8.ofNat (0x80 + n / 64 % 64), UInt8.ofNat (0x80 + n % 64)]
  else
    [UInt8.ofNat (0xF0 + n / 262144), UInt8.ofNat (0x80 + n / 4096 % 64),
      UInt8.ofNat (0x80 + n / 64 % 64), UInt8.ofNat (0x80 + n % 64)]

/-- `str::as_bytes`. -/
def encode (s : String) : List UInt8 := s.toList.flatMap encodeChar

section

variable {n : Nat} (small : n < 256)
include small

theorem toNat_byte : (UInt8.ofNat n).toNat = n := by simp [Nat.mod_eq_of_lt small]

theorem byte_lt (b : UInt8) : UInt8.ofNat n < b ↔ n < b.toNat := by
  rw [UInt8.lt_iff_toNat_lt, toNat_byte small]

theorem byte_eq (b : UInt8) : UInt8.ofNat n = b ↔ n = b.toNat := by
  rw [← UInt8.toNat_inj, toNat_byte small]

theorem byte_between (low high : UInt8) :
    (decide (low ≤ UInt8.ofNat n) && decide (UInt8.ofNat n ≤ high)) = decide (low.toNat ≤ n ∧ n ≤ high.toNat) := by
  simp only [Bool.decide_and, UInt8.le_iff_toNat_le, toNat_byte small]

end

theorem isContinuation_byte (n : Nat) : isContinuation (UInt8.ofNat (0x80 + n % 64)) = true := by
  simp only [isContinuation, byte_between (show 0x80 + n % 64 < 256 by omega), UInt8.reduceToNat, decide_eq_true_eq]
  omega

theorem low_byte (n : Nat) : low (UInt8.ofNat (0x80 + n % 64)) = n % 64 := by
  rw [low, toNat_byte (by omega)]
  omega

theorem secondOk_byte {lead n : Nat} (small : lead < 256)
    (three : lead = 0xE0 → 32 ≤ n % 64) (surrogates : lead = 0xED → n % 64 < 32)
    (four : lead = 0xF0 → 16 ≤ n % 64) (last : lead = 0xF4 → n % 64 < 16) :
    secondOk (UInt8.ofNat lead) (UInt8.ofNat (0x80 + n % 64)) = true := by
  have second : 0x80 + n % 64 < 256 := by omega
  simp only [secondOk, byte_eq small, byte_between second, UInt8.reduceToNat]
  split_ifs
  case neg => exact isContinuation_byte n
  all_goals
    rw [decide_eq_true_eq]
    omega

theorem next_encodeChar (c : Char) (rest : List UInt8) : next (encodeChar c ++ rest) = some (.char c, rest) := by
  have range : c.toNat < 0xD800 ∨ 0xDFFF < c.toNat ∧ c.toNat < 0x110000 := c.valid
  have back : Char.ofNat c.toNat = c := Char.ofNat_toNat c
  unfold encodeChar
  generalize c.toNat = n at range back
  dsimp only
  split_ifs with one two three
  · have small : n < 256 := by omega
    have lead : UInt8.ofNat n < 0x80 := (byte_lt small _).mpr one
    simp [next, lead, Nat.mod_eq_of_lt small, back]
  · generalize byte : 0xC0 + n / 64 = b
    have small : b < 256 := by omega
    have value : b % 32 * 64 + n % 64 = n := by omega
    have ascii : ¬b < 128 := by omega
    have lead : 194 ≤ b ∧ b ≤ 223 := by omega
    simp only [cons_append, nil_append, next, byte_lt small, UInt8.reduceToNat, ascii, byte_between small,
      decide_eq_true lead, if_true, if_false, isContinuation_byte, low_byte, toNat_byte small, value, back]
  · generalize byte : 0xE0 + n / 4096 = b
    have small : b < 256 := by omega
    have value : b % 16 * 4096 + n / 64 % 64 * 64 + n % 64 = n := by omega
    have ascii : ¬b < 128 := by omega
    have notTwo : ¬(194 ≤ b ∧ b ≤ 223) := by omega
    have lead : 224 ≤ b ∧ b ≤ 239 := by omega
    have second := secondOk_byte (n := n / 64) small (by omega) (by omega) (by omega) (by omega)
    simp only [cons_append, nil_append, next, byte_lt small, UInt8.reduceToNat, ascii,
      byte_between small, decide_eq_true lead, decide_eq_false notTwo, if_true, if_false, isContinuation_byte, second,
      Bool.not_true, Bool.false_eq_true, low_byte, toNat_byte small, value, back]
  · generalize byte : 0xF0 + n / 262144 = b
    have small : b < 256 := by omega
    have value : b % 8 * 262144 + n / 4096 % 64 * 4096 + n / 64 % 64 * 64 + n % 64 = n := by omega
    have ascii : ¬b < 128 := by omega
    have notTwo : ¬(194 ≤ b ∧ b ≤ 223) := by omega
    have notThree : ¬(224 ≤ b ∧ b ≤ 239) := by omega
    have lead : 240 ≤ b ∧ b ≤ 244 := by omega
    have second := secondOk_byte (n := n / 4096) small (by omega) (by omega) (by omega) (by omega)
    simp only [cons_append, nil_append, next, byte_lt small, UInt8.reduceToNat, ascii,
      byte_between small, decide_eq_true lead, decide_eq_false notTwo, decide_eq_false notThree, if_true, if_false,
      isContinuation_byte, second, Bool.not_true, Bool.false_eq_true, low_byte, toNat_byte small, value, back]

theorem encodeChar_ne_nil (c : Char) : encodeChar c ≠ [] := by
  unfold encodeChar
  dsimp only
  split_ifs <;> exact cons_ne_nil _ _

theorem pieces_encode (chars : List Char) : ∀ index fuel, chars.length ≤ fuel →
      (pieces index fuel (chars.flatMap encodeChar)).map Prod.snd = chars.map Piece.char := by
  induction chars with
  | nil =>
    intro index fuel _
    cases fuel <;> rfl
  | cons c chars ih =>
    intro index fuel enough
    obtain ⟨fuel, rfl⟩ := Nat.exists_eq_add_one_of_ne_zero (Nat.ne_zero_of_lt enough)
    rw [flatMap_cons, pieces, next_encodeChar]
    exact congrArg (Piece.char c :: ·) (ih _ fuel (Nat.le_of_succ_le_succ enough))

theorem length_le_encode (chars : List Char) : chars.length ≤ (chars.flatMap encodeChar).length := by
  induction chars with
  | nil => exact Nat.le_refl 0
  | cons c chars ih =>
    have := length_pos_of_ne_nil (encodeChar_ne_nil c)
    rw [flatMap_cons, length_append, length_cons]
    omega

theorem encode_length_le (s : String) : (encode s).length ≤ 4 * s.toList.length := by
  have one (c : Char) : (encodeChar c).length ≤ 4 := by
    unfold encodeChar
    dsimp only
    split_ifs <;> simp
  unfold encode
  induction s.toList with
  | nil => simp
  | cons c chars ih =>
    have := one c
    rw [flatMap_cons, length_append, length_cons]
    omega

/-- What was encoded is decoded to itself. -/
theorem fromUtf8Lossy_encode (s : String) : fromUtf8Lossy (encode s) = s := by
  let char : Piece → Char := fun
    | .char c => c
    | _ => Char.ofNat 0xFFFD
  calc
    fromUtf8Lossy (encode s) = String.ofList (((pieces 0 (encode s).length (encode s)).map Prod.snd).map char) := by
        rw [map_map]
        refine congrArg String.ofList (map_congr_left ?_)
        rintro ⟨index, c | length | _⟩ _ <;> rfl
    _ = String.ofList ((s.toList.map Piece.char).map char) := by
        rw [encode, pieces_encode s.toList 0 _ (length_le_encode s.toList)]
    _ = String.ofList s.toList := by
        rw [map_map]
        exact congrArg String.ofList (map_id s.toList)
    _ = s := String.ofList_toList

theorem collect_chars (chars : List Char) :
    ∀ found : List (Nat × Piece), found.map Prod.snd = chars.map Piece.char → collect found = .ok chars := by
  induction chars with
  | nil =>
    intro found none
    rw [map_eq_nil_iff.mp none]
    rfl
  | cons c chars ih =>
    intro found whole
    obtain ⟨⟨index, piece⟩, rest, rfl, first, later⟩ := map_eq_cons_iff.mp whole
    obtain rfl : piece = .char c := first
    rw [collect, ih rest later]
    rfl

theorem fromUtf8_encode (s : String) : fromUtf8 (encode s) = .ok s := by
  rw [fromUtf8, encode, collect_chars s.toList _ (pieces_encode s.toList 0 _ (length_le_encode s.toList)), Except.map,
    String.ofList_toList]

example : (fromUtf8 (encode "aé€😀")).toOption = some "aé€😀" := by decide
example : fromUtf8Lossy [0x61, 0xE2, 0x82, 0x62] = "a�b" := by decide
example : (fromUtf8 [0xED, 0xA0, 0x80]).toOption = none := by decide

end Utf8
