import FlowRulZ.Lib.Text
import Mathlib.Data.Char
import Mathlib.Tactic.IntervalCases

/-! # The grammar of JSON

What text is JSON, and what it stands for, as RFC 8259 has it.  The values are left open: an
algebra says what the parts of a text stand for, also its numerals.
-/

namespace JsonGrammar

open List

/-- What the parts of a text stand for. The members of an object come in the order of the text. -/
structure Algebra (V : Type*) where
  null : V
  bool : Bool → V
  number : List Char → Option V
  string : String → V
  array : List V → V
  object : List (String × V) → V

def isBlank (c : Char) : Bool := c = ' ' || c = '\t' || c = '\n' || c = '\r'

def isPlain (c : Char) : Bool := 0x20 ≤ c.toNat && c ≠ '"' && c ≠ '\\'

def shortEscapes : List (Char × Char) :=
  [('"', '"'), ('\\', '\\'), ('/', '/'), ('b', Char.ofNat 8), ('f', Char.ofNat 12), ('n', '\n'), ('r', '\r'),
    ('t', '\t')]

def isHex (c : Char) : Bool := c.isDigit || ('a' ≤ c && c ≤ 'f') || ('A' ≤ c && c ≤ 'F')

def hexDigit (c : Char) : Nat :=
  if c.isDigit then c.toNat - 48 else if 'a' ≤ c then c.toNat - 87 else c.toNat - 55

structure Code (digits : List Char) (n : Nat) : Prop where
  length : digits.length = 4
  hex : ∀ c ∈ digits, isHex c = true
  value : digits.foldl (fun n c => 16 * n + hexDigit c) 0 = n

inductive Spells : List Char → List Char → Prop
  | nil : Spells [] []
  | plain {c : Char} {text s : List Char} : isPlain c = true → Spells text s → Spells (c :: text) (c :: s)
  | short {letter c : Char} {text s : List Char} :
      (letter, c) ∈ shortEscapes → Spells text s → Spells ('\\' :: letter :: text) (c :: s)
  | code {digits : List Char} {n : Nat} {text s : List Char} : Code digits n → n.isValidChar → Spells text s →
        Spells ('\\' :: 'u' :: digits ++ text) (Char.ofNat n :: s)
  | pair {high low : List Char} {m n : Nat} {text s : List Char} :
      Code high m → Code low n → 0xD800 ≤ m → m < 0xDC00 → 0xDC00 ≤ n → n < 0xE000 → Spells text s →
        Spells ('\\' :: 'u' :: high ++ '\\' :: 'u' :: low ++ text)
          (Char.ofNat (0x10000 + (m - 0xD800) * 0x400 + (n - 0xDC00)) :: s)

def Digits (text : List Char) : Prop := text ≠ [] ∧ ∀ c ∈ text, c.isDigit = true

structure Numeral (text : List Char) : Prop where
  parts : ∃ sign whole fraction exponent, text = sign ++ whole ++ fraction ++ exponent ∧
    (sign = [] ∨ sign = ['-']) ∧
    (whole = ['0'] ∨ Digits whole ∧ whole.head? ≠ some '0') ∧
    (fraction = [] ∨ ∃ digits, fraction = '.' :: digits ∧ Digits digits) ∧
    (exponent = [] ∨ ∃ letter plus digits, exponent = letter :: plus ++ digits ∧ letter ∈ ['e', 'E'] ∧
      plus ∈ [[], ['+'], ['-']] ∧ Digits digits)

def separated (sep : Char) (texts : List (List Char)) : List Char := [sep].intercalate texts

/-- One member of an object: the texts of its name and of its value, and what they stand for. -/
structure Member (V : Type*) where
  before : List Char
  spelling : List Char
  after : List Char
  text : List Char
  name : String
  value : V

namespace Member

variable {V : Type*}

def whole (m : Member V) : List Char := m.before ++ '"' :: m.spelling ++ '"' :: m.after ++ ':' :: m.text

def entry (m : Member V) : String × V := (m.name, m.value)

def Named (m : Member V) : Prop :=
  m.before.all isBlank = true ∧ Spells m.spelling m.name.toList ∧ m.after.all isBlank = true

end Member

/-- A text is JSON and stands for a value. -/
inductive Denotes {V : Type*} (algebra : Algebra V) : List Char → V → Prop
  | null : Denotes algebra "null".toList algebra.null
  | bool (b : Bool) : Denotes algebra (if b then "true".toList else "false".toList) (algebra.bool b)
  | number {text : List Char} {v : V} : Numeral text → algebra.number text = some v → Denotes algebra text v
  | string {text : List Char} {s : String} :
      Spells text s.toList → Denotes algebra ('"' :: text ++ ['"']) (algebra.string s)
  | emptyArray {blanks : List Char} :
      blanks.all isBlank = true → Denotes algebra ('[' :: blanks ++ [']']) (algebra.array [])
  | array {items : List (List Char × V)} : items ≠ [] → (∀ item ∈ items, Denotes algebra item.1 item.2) →
      Denotes algebra ('[' :: separated ',' (items.map Prod.fst) ++ [']']) (algebra.array (items.map Prod.snd))
  | emptyObject {blanks : List Char} :
      blanks.all isBlank = true → Denotes algebra ('\x7b' :: blanks ++ ['\x7d']) (algebra.object [])
  | object {members : List (Member V)} : members ≠ [] → (∀ m ∈ members, m.Named) →
      (∀ m ∈ members, Denotes algebra m.text m.value) →
      Denotes algebra ('\x7b' :: separated ',' (members.map Member.whole) ++ ['\x7d'])
        (algebra.object (members.map Member.entry))
  | blanks {before text after : List Char} {v : V} : before.all isBlank = true → after.all isBlank = true →
      Denotes algebra text v → Denotes algebra (before ++ text ++ after) v

variable {text : List Char}

theorem spells_plain (plain : text.all isPlain = true) : Spells text text := by
  induction text with
  | nil => exact .nil
  | cons c text ih =>
    rw [all_cons, Bool.and_eq_true] at plain
    exact .plain plain.1 (ih plain.2)

def hexChar (n : Nat) : Char := if n < 10 then Char.ofNat (48 + n) else Char.ofNat (87 + n)

def escape (c : Char) : List Char :=
  if isPlain c then [c]
  else if c = '"' ∨ c = '\\' then ['\\', c]
  else ['\\', 'u', '0', '0', hexChar (c.toNat / 16), hexChar (c.toNat % 16)]

theorem code_control : ∀ n < 0x20, Code ['0', '0', hexChar (n / 16), hexChar (n % 16)] n := by
  intro n control
  interval_cases n <;> exact ⟨rfl, all_eq_true.mp rfl, rfl⟩

theorem spells_escape (s : List Char) : Spells (s.flatMap escape) s := by
  induction s with
  | nil => exact .nil
  | cons c s ih =>
    rw [flatMap_cons, escape]
    split_ifs with plain quoted
    · exact .plain plain ih
    · rcases quoted with rfl | rfl
      · exact .short (by decide) ih
      · exact .short (by decide) ih
    · have control : c.toNat < 0x20 := by
        simp only [isPlain, Bool.and_eq_true, decide_eq_true_eq] at plain
        by_contra high
        exact plain ⟨⟨Nat.le_of_not_lt high, fun same => quoted (.inl same)⟩, fun same => quoted (.inr same)⟩
      have coded := Spells.code (code_control c.toNat control) c.valid ih
      rwa [Char.ofNat_toNat] at coded

theorem not_mem_of_forall {c : Char} {p : Char → Bool} (all : ∀ c ∈ text, p c = true) (refused : p c = false) :
    c ∉ text := fun inside => Bool.false_ne_true (refused.symm.trans (all c inside))

theorem Digits.clean (digits : Digits text) : '\x1f' ∉ text := not_mem_of_forall digits.2 rfl

theorem clean_blanks (blank : text.all isBlank = true) : '\x1f' ∉ text := not_mem_of_forall (all_eq_true.mp blank) rfl

theorem Code.clean {digits : List Char} {n : Nat} (code : Code digits n) : '\x1f' ∉ digits := not_mem_of_forall code.hex rfl

theorem Spells.clean {text s : List Char} (spells : Spells text s) : '\x1f' ∉ text := by
  induction spells with
  | nil => exact not_mem_nil
  | plain plain _ ih =>
    refine not_mem_cons_of_ne_of_not_mem ?_ ih
    rintro rfl
    cases plain
  | short listed _ ih =>
    have letters : ∀ e ∈ shortEscapes, '\x1f' ≠ e.1 := by decide
    simp [ih, letters _ listed]
  | code code _ _ ih => simp [code.clean, ih]
  | pair high low _ _ _ _ _ ih => simp [high.clean, low.clean, ih]

theorem Numeral.clean (numeral : Numeral text) : '\x1f' ∉ text := by
  obtain ⟨sign, whole, fraction, exponent, rfl, signed, digits, fractional, exponential⟩ := numeral.parts
  simp only [mem_append, not_or, and_assoc]
  refine ⟨?_, ?_, ?_, ?_⟩
  · rcases signed with rfl | rfl <;> simp
  · rcases digits with rfl | ⟨digits, -⟩
    · simp
    · exact digits.clean
  · rcases fractional with rfl | ⟨digits, rfl, some⟩ <;> simp [Digits.clean, *]
  · rcases exponential with rfl | ⟨letter, plus, digits, rfl, e, signs, some⟩
    · exact not_mem_nil
    · have letters : ∀ letter ∈ ['e', 'E'], '\x1f' ≠ letter := by simp
      have pluses : ∀ sign ∈ [[], ['+'], ['-']], '\x1f' ∉ sign := by decide
      simp [letters _ e, pluses _ signs, some.clean]

theorem clean_separated {texts : List (List Char)} (all : ∀ text ∈ texts, '\x1f' ∉ text) :
    '\x1f' ∉ separated ',' texts := by
  induction texts with
  | nil => exact not_mem_nil
  | cons a texts ih =>
    obtain ⟨first, later⟩ := forall_mem_cons.mp all
    cases texts with
    | nil => simpa [separated, intercalate] using first
    | cons b texts => exact not_mem_append first (not_mem_cons_of_ne_of_not_mem (by decide) (ih later))

/-- The control character U+001F stands nowhere in JSON text. -/
theorem Denotes.clean {V : Type*} {algebra : Algebra V} {v : V} (denotes : Denotes algebra text v) : '\x1f' ∉ text := by
  induction denotes with
  | null => simp
  | bool b => cases b <;> simp
  | number numeral _ => exact numeral.clean
  | string spells => simp [spells.clean]
  | emptyArray blank | emptyObject blank => simp [clean_blanks blank]
  | array _ _ ih =>
    have items := clean_separated (forall_mem_map.mpr ih)
    simp [items]
  | object _ named _ ih =>
    have each : ∀ m ∈ _, '\x1f' ∉ Member.whole m := fun m listed => by
      obtain ⟨before, spelled, after⟩ := named m listed
      simp [Member.whole, clean_blanks before, spelled.clean, clean_blanks after, ih m listed]
    simp [clean_separated (forall_mem_map.mpr each)]
  | blanks before after _ ih => simp [clean_blanks before, ih, clean_blanks after]

end JsonGrammar
