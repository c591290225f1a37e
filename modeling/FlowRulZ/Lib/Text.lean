import Mathlib.Data.List.DropRight

/-! # Text operations of the Rust standard library

Only the operations the embedded code uses, over the characters of a string.
-/

namespace Text

open List String

/-- The Unicode property White_Space, which `str::trim` strips. -/
def isWhitespace (c : Char) : Bool :=
  let n := c.toNat
  (9 ≤ n && n ≤ 13) || n == 0x20 || n == 0x85 || n == 0xA0 || n == 0x1680 ||
    (0x2000 ≤ n && n ≤ 0x200A) || n == 0x2028 || n == 0x2029 || n == 0x202F ||
    n == 0x205F || n == 0x3000

variable {c : Char}

theorem isAlphanum_of_isWhitespace (blank : Text.isWhitespace c = true) : c.isAlphanum = false := by
  simp only [Text.isWhitespace, Bool.or_eq_true, Bool.and_eq_true, decide_eq_true_eq, beq_iff_eq] at blank
  rw [← Bool.not_eq_true]
  intro letter
  delta Char.isAlphanum Char.isAlpha Char.isUpper Char.isLower Char.isDigit at letter
  simp only [Bool.or_eq_true, Bool.and_eq_true, decide_eq_true_eq] at letter
  change ((65 ≤ c.toNat ∧ c.toNat ≤ 90) ∨ (97 ≤ c.toNat ∧ c.toNat ≤ 122)) ∨ 48 ≤ c.toNat ∧ c.toNat ≤ 57 at letter
  omega

theorem forall_mem_of_all {chars : List Char} {p : Char → Prop} [DecidablePred p]
    (all : (chars.all fun c => decide (p c)) = true) : ∀ c ∈ chars, p c :=
  fun c inside => of_decide_eq_true (all_eq_true.mp all c inside)

def trim (s : String) : String :=
  String.ofList ((s.toList.dropWhile isWhitespace).rdropWhile isWhitespace)

def trimStartMatches (s : String) (c : Char) : String :=
  String.ofList (s.toList.dropWhile (· == c))

def trimEndMatches (s : String) (c : Char) : String :=
  String.ofList (s.toList.rdropWhile (· == c))

/-- `str::split` at one character: always at least one piece. -/
def split (s : String) (c : Char) : List String :=
  (s.toList.splitOn c).map String.ofList

/-- The text before and after the first occurrence of a character. -/
def splitFirst (s : String) (c : Char) : Option (String × String) :=
  if c ∈ s.toList then
    some (String.ofList (s.toList.takeWhile (· != c)), String.ofList ((s.toList.dropWhile (· != c)).drop 1))
  else none

variable {s : String}

theorem splitFirst_none : splitFirst s c = none ↔ c ∉ s.toList := by
  simp [splitFirst]

theorem splitFirst_some {s a b : String} (h : splitFirst s c = some (a, b)) :
    s.toList = a.toList ++ c :: b.toList ∧ c ∉ a.toList := by
  have whole : ∀ l : List Char, c ∈ l → l = l.takeWhile (· != c) ++ c :: (l.dropWhile (· != c)).drop 1 := by
    intro l there
    induction l with
    | nil => cases there
    | cons d l ih =>
      by_cases same : d = c
      · simp [same]
      · have later : c ∈ l := (mem_cons.mp there).resolve_left (Ne.symm same)
        simpa [same] using ih later
  unfold splitFirst at h
  split_ifs at h with there
  obtain ⟨rfl, rfl⟩ := by simpa using h
  refine ⟨by simpa using whole s.toList there, ?_⟩
  intro inside
  have apart := mem_takeWhile_imp (by simpa using inside)
  simp at apart

def contains (s : String) (c : Char) : Bool := decide (c ∈ s.toList)

def startsWith (s pre : String) : Bool := pre.toList.isPrefixOf s.toList

def endsWith (s post : String) : Bool := post.toList.isSuffixOf s.toList

def containsStr (s pattern : String) : Bool :=
  s.toList.tails.any (pattern.toList.isPrefixOf ·)

def stripPrefix (s pre : String) : Option String :=
  if startsWith s pre then some (String.ofList (s.toList.drop pre.length)) else none

theorem stripPrefix_append (pre rest : String) : stripPrefix (pre ++ rest) pre = some rest := by
  have starts : startsWith (pre ++ rest) pre = true := by
    rw [startsWith, toList_append]
    exact isPrefixOf_iff_prefix.mpr (prefix_append _ _)
  rw [stripPrefix, if_pos starts, toList_append, ← length_toList, drop_left, ofList_toList]

theorem startsWith_cons (pre : String) {c d : Char} {chars more : List Char} (whole : s.toList = c :: chars)
    (front : pre.toList = d :: more) (differ : d ≠ c) : startsWith s pre = false := by
  simp [startsWith, whole, front, List.isPrefixOf, differ]

theorem stripPrefix_cons (pre : String) {c d : Char} {chars more : List Char} (whole : s.toList = c :: chars)
    (front : pre.toList = d :: more) (differ : d ≠ c) : stripPrefix s pre = none := by
  rw [stripPrefix, startsWith_cons pre whole front differ]
  rfl

/-- The slice from an ASCII position up to the last character, which is left out. -/
def interior (s : String) (front : Nat) : String :=
  String.ofList (s.toList.drop front).dropLast

def join (sep : String) : List String → String
  | [] => ""
  | [s] => s
  | s :: rest => s ++ sep ++ join sep rest

/-- `str::split_whitespace`: the words between blanks. -/
def splitWhitespace (s : String) : List String :=
  ((s.toList.splitOnP isWhitespace).filter fun word => !word.isEmpty).map String.ofList

/-- `str::parse` of an unsigned integer below a bound: digits, with a plus before them or not. -/
def parseUInt (bound : Nat) (s : String) : Option Nat :=
  let digits := if s.toList.head? = some '+' then s.toList.tail else s.toList
  if digits.isEmpty || !digits.all Char.isDigit then none
  else
    let n := Nat.ofDigitChars 10 digits 0
    if n < bound then some n else none

/-- The pieces between the occurrences of a pattern that is not empty, from left to right. The characters of an
occurrence behind its first one are skipped. -/
def splitChars (pattern : List Char) : Nat → List Char → List Char → List (List Char)
  | _, piece, [] => [piece]
  | skip + 1, piece, _ :: rest => splitChars pattern skip piece rest
  | 0, piece, c :: rest =>
    if pattern.isPrefixOf (c :: rest) then piece :: splitChars pattern (pattern.length - 1) [] rest
    else splitChars pattern 0 (piece ++ [c]) rest

/-- `str::split` with a string pattern; an empty one is found around every character. -/
def splitStr (s pattern : String) : List String :=
  if pattern.isEmpty then "" :: (s.toList.map String.singleton ++ [""])
  else (splitChars pattern.toList 0 [] s.toList).map String.ofList

def replace (s pattern new : String) : String := join new (splitStr s pattern)

def padded (width n : Nat) : String :=
  String.ofList (List.replicate (width - (Nat.toDigits 10 n).length) '0' ++ Nat.toDigits 10 n)

theorem join_cons_cons (sep s t : String) (rest : List String) :
    join sep (s :: t :: rest) = s ++ sep ++ join sep (t :: rest) := rfl

theorem toList_join (c : Char) (pieces : List String) :
    (join (singleton c) pieces).toList = [c].intercalate (pieces.map toList) := by
  induction pieces with
  | nil => rfl
  | cons s rest ih =>
    cases rest with
    | nil => simp [join, List.intercalate]
    | cons t rest =>
      rw [join_cons_cons, toList_append, ih]
      simp [List.intercalate]

variable {pieces : List String}

theorem split_join (free : ∀ piece ∈ pieces, c ∉ piece.toList)
    (some : pieces ≠ []) : split (join (singleton c) pieces) c = pieces := by
  rw [split, toList_join, splitOn_intercalate]
  · simp
  · intro l member
    obtain ⟨piece, inside, rfl⟩ := mem_map.mp member
    exact free piece inside
  · simpa using some

theorem join_split (s : String) (c : Char) : join (singleton c) (split s c) = s := by
  apply toList_injective
  rw [toList_join, split]
  simp [Function.comp_def, intercalate_splitOn]

theorem join_append (sep : String) {left right : List String} (some : left ≠ []) (some' : right ≠ []) :
    join sep (left ++ right) = join sep left ++ sep ++ join sep right := by
  induction left with
  | nil => exact absurd rfl some
  | cons s left ih =>
    cases left with
    | nil =>
      obtain ⟨t, right, rfl⟩ := exists_cons_of_ne_nil some'
      rfl
    | cons t left =>
      rw [cons_append, cons_append, join_cons_cons, join_cons_cons, ← cons_append, ih (cons_ne_nil _ _)]
      simp only [String.append_assoc]

theorem join_cons_append (sep s : String) (rest : List String) : ∃ tail, join sep (s :: rest) = s ++ tail := by
  cases rest with
  | nil => exact ⟨"", by rw [join, append_empty]⟩
  | cons t rest => exact ⟨sep ++ join sep (t :: rest), by rw [join_cons_cons, String.append_assoc]⟩

theorem join_concat_append (sep s : String) (front : List String) : ∃ head, join sep (front ++ [s]) = head ++ s := by
  cases front with
  | nil => exact ⟨"", by rw [nil_append, join, empty_append]⟩
  | cons t front =>
    rw [join_append sep (cons_ne_nil _ _) (cons_ne_nil _ _)]
    exact ⟨_, rfl⟩

theorem join_flatMap {α : Type*} (sep : String) (f : α → List String) (some : ∀ a, f a ≠ []) (groups : List α) :
    join sep (groups.flatMap f) = join sep (groups.map fun a => join sep (f a)) := by
  induction groups with
  | nil => rfl
  | cons a groups ih =>
    rw [flatMap_cons, map_cons]
    cases groups with
    | nil => simp [join]
    | cons b groups =>
      have more : (b :: groups).flatMap f ≠ [] := by
        exact append_ne_nil_of_left_ne_nil (some b) _
      rw [join_append sep (some a) more, ih, map_cons, join_cons_cons]

theorem trim_eq_self (free : ∀ c ∈ s.toList, isWhitespace c = false) : trim s = s := by
  have front : s.toList.dropWhile isWhitespace = s.toList := by
    cases whole : s.toList with
    | nil => rfl
    | cons c rest => exact dropWhile_cons_of_neg (by simp [free c (whole ▸ mem_cons_self)])
  have back : s.toList.rdropWhile isWhitespace = s.toList := by
    rw [rdropWhile_eq_self_iff]
    intro some
    simp [free _ (getLast_mem some)]
  rw [trim, front, back, ofList_toList]

theorem trim_of_ends {c d : Char} {rest front : List Char} (begins : s.toList = c :: rest)
    (ends : s.toList = front ++ [d]) (dark : isWhitespace c = false) (dark' : isWhitespace d = false) : trim s = s := by
  have left : s.toList.dropWhile isWhitespace = s.toList := by
    rw [begins]
    exact dropWhile_cons_of_neg (by simp [dark])
  have right : s.toList.rdropWhile isWhitespace = s.toList := by
    rw [ends]
    exact rdropWhile_concat_neg _ _ _ (by simp [dark'])
  rw [trim, left, right, ofList_toList]

theorem trimStartMatches_singleton (free : c ∉ s.toList) : trimStartMatches (singleton c ++ s) c = s := by
  have rest : s.toList.dropWhile (· == c) = s.toList := by
    cases whole : s.toList with
    | nil => rfl
    | cons d rest =>
      refine dropWhile_cons_of_neg ?_
      rintro same
      exact free (whole ▸ (beq_iff_eq.mp same) ▸ mem_cons_self)
  rw [trimStartMatches, toList_append, toList_singleton, singleton_append,
    dropWhile_cons_of_pos (p := (· == c)) (beq_self_eq_true c), rest, ofList_toList]

theorem trimEndMatches_of_not_mem (free : c ∉ s.toList) : trimEndMatches s c = s := by
  rw [trimEndMatches, rdropWhile_eq_self_iff.mpr, ofList_toList]
  intro some same
  exact free (beq_iff_eq.mp same ▸ getLast_mem some)

theorem trimEndMatches_singleton (free : c ∉ s.toList) : trimEndMatches (s ++ singleton c) c = s := by
  have cut : trimEndMatches (s ++ singleton c) c = trimEndMatches s c := by
    rw [trimEndMatches, trimEndMatches, toList_append, toList_singleton,
      rdropWhile_concat_pos (· == c) _ _ (beq_self_eq_true c)]
  rw [cut, trimEndMatches_of_not_mem free]

theorem trim_between {c d : Char} (differ : c ≠ d) (free : c ∉ s.toList) (free' : d ∉ s.toList)
    (dark : ∀ b ∈ s.toList, isWhitespace b = false) :
    trim (trimEndMatches (trimStartMatches (String.singleton c ++ s ++ String.singleton d) c) d) = s := by
  have opened : c ∉ (s ++ singleton d).toList := by
    simp [free, differ]
  rw [String.append_assoc, trimStartMatches_singleton opened, trimEndMatches_singleton free', trim_eq_self dark]

theorem interior_between (front : String) (s : String) (c : Char) :
    interior (front ++ s ++ singleton c) front.length = s := by
  have cut : (front ++ s ++ singleton c).toList.drop front.length = s.toList ++ [c] := by
    rw [String.append_assoc, String.toList_append, ← String.length_toList]
    simp
  rw [interior, cut, dropLast_concat, ofList_toList]

theorem splitFirst_singleton {a b : String} (free : c ∉ a.toList) :
    splitFirst (a ++ singleton c ++ b) c = some (a, b) := by
  have whole : (a ++ singleton c ++ b).toList = a.toList ++ c :: b.toList := by simp
  have differ : ∀ d ∈ a.toList, (d != c) = true := by
    intro d member
    rw [bne_iff_ne]
    rintro rfl
    exact free member
  rw [splitFirst, whole, takeWhile_append_of_pos differ, dropWhile_append_of_pos differ]
  simp

theorem split_of_not_mem (free : c ∉ s.toList) : split s c = [s] := by
  have one : ∀ piece ∈ [s], c ∉ piece.toList := forall_mem_singleton.mpr free
  exact split_join one (cons_ne_nil _ _)

theorem mem_join {sep : String} (inside : c ∈ (join sep pieces).toList) :
    c ∈ sep.toList ∨ ∃ piece ∈ pieces, c ∈ piece.toList := by
  induction pieces with
  | nil => cases inside
  | cons s rest ih =>
    cases rest with
    | nil => exact .inr ⟨s, mem_cons_self, inside⟩
    | cons t rest =>
      rw [join_cons_cons, toList_append, toList_append, mem_append, mem_append] at inside
      rcases inside with (here | between) | later
      · exact .inr ⟨s, mem_cons_self, here⟩
      · exact .inl between
      · rcases ih later with between | ⟨piece, member, there⟩
        · exact .inl between
        · exact .inr ⟨piece, mem_cons_of_mem s member, there⟩

/-- What stands between braces is read back if its pieces hold no brace and no blank. -/
theorem trim_braced_join (clean : ∀ piece ∈ pieces, ∀ c ∈ piece.toList,
      c ∉ [',', '\x7b', '\x7d'] ∧ isWhitespace c = false) :
    trim (trimEndMatches (trimStartMatches ("\x7b" ++ join "," pieces ++ "\x7d") '\x7b') '\x7d') = join "," pieces := by
  have bare : ∀ c ∈ (join "," pieces).toList, c ∉ ['\x7b', '\x7d'] ∧ isWhitespace c = false := by
    intro c inside
    rcases mem_join inside with comma | ⟨piece, member, there⟩
    · obtain rfl : c = ',' := by simpa using comma
      decide
    · obtain ⟨other, dark⟩ := clean piece member c there
      exact ⟨fun brace => other (mem_cons_of_mem _ brace), dark⟩
  have opened : "\x7b" = singleton '\x7b' := rfl
  have closed : "\x7d" = singleton '\x7d' := rfl
  rw [closed]
  exact trim_between (by decide) (fun inside => (bare _ inside).1 (by decide))
    (fun inside => (bare _ inside).1 (by decide)) fun c inside => (bare c inside).2

theorem mem_join_of_mem {sep piece : String} (member : piece ∈ pieces)
    (inside : c ∈ piece.toList) : c ∈ (join sep pieces).toList := by
  induction pieces with
  | nil => cases member
  | cons s rest ih =>
    cases rest with
    | nil =>
      obtain rfl := mem_singleton.mp member
      exact inside
    | cons t rest =>
      rw [join_cons_cons, toList_append, toList_append, mem_append]
      rcases mem_cons.mp member with rfl | later
      · exact .inl (mem_append_left _ inside)
      · exact .inr (ih later)

theorem length_le_join {sep piece : String} (member : piece ∈ pieces) : piece.length ≤ (join sep pieces).length := by
  induction pieces with
  | nil => cases member
  | cons s rest ih =>
    cases rest with
    | nil =>
      obtain rfl := mem_singleton.mp member
      exact Nat.le_refl _
    | cons t rest =>
      rw [join_cons_cons, String.length_append, String.length_append]
      rcases mem_cons.mp member with rfl | later
      · omega
      · have inside := ih later
        omega

/-- A separator that is there makes every piece shorter. -/
theorem length_lt_of_mem_split {s piece : String} (inside : c ∈ s.toList) (member : piece ∈ split s c) :
    piece.length < s.length := by
  obtain ⟨a, b, whole⟩ := append_of_mem inside
  have short : ∀ part : List Char, piece ∈ split (ofList part) c → piece.length ≤ part.length := by
    intro part there
    have bound : piece.length ≤ (join (singleton c) (split (ofList part) c)).length := length_le_join there
    rwa [join_split, length_ofList] at bound
  have length : s.length = a.length + b.length + 1 := by
    rw [← length_toList, whole]
    simp
    omega
  rw [split, whole, splitOn_append_cons_self, map_append, mem_append] at member
  rcases member with before | after
  · have bound := short a (by rwa [split, toList_ofList])
    omega
  · have bound := short b (by rwa [split, toList_ofList])
    omega

theorem length_trim_le (s : String) : (trim s).length ≤ s.length := by
  rw [trim, ← length_toList, toList_ofList]
  exact (List.rdropWhile_prefix isWhitespace _).length_le.trans (dropWhile_sublist isWhitespace).length_le

theorem mem_of_mem_split {s piece : String} {c d : Char} (member : piece ∈ split s c) (inside : d ∈ piece.toList) :
    d ∈ s.toList := by
  rw [← join_split s c]
  exact mem_join_of_mem member inside

theorem mem_of_mem_trim (inside : c ∈ (trim s).toList) : c ∈ s.toList := by
  rw [trim, toList_ofList] at inside
  have front := (List.rdropWhile_prefix isWhitespace _).mem inside
  exact (dropWhile_sublist isWhitespace).mem front

theorem mem_of_mem_interior {front : Nat} (inside : c ∈ (interior s front).toList) : c ∈ s.toList := by
  rw [interior, toList_ofList] at inside
  exact mem_of_mem_drop ((dropLast_sublist _).mem inside)

theorem append_cons_inj {a b a' b' : List Char} (last : c ∉ b) (last' : c ∉ b')
    (same : a ++ c :: b = a' ++ c :: b') : a = a' ∧ b = b' := by
  rcases append_eq_append_iff.mp same with ⟨d, rfl, rest⟩ | ⟨d, rfl, rest⟩
  · cases d with
    | nil => simpa using rest
    | cons first d =>
      obtain ⟨-, rfl⟩ := cons_eq_cons.mp rest
      simp at last
  · cases d with
    | nil => simpa [eq_comm] using rest
    | cons first d =>
      obtain ⟨-, rfl⟩ := cons_eq_cons.mp rest
      simp at last'

/-- What stands before a number, and the number, can be read off if a character that is no digit separates them. -/
theorem append_number_inj (noDigit : c.isDigit = false) {a a' : List Char} {n n' : Nat}
    (same : a ++ c :: Nat.toDigits 10 n = a' ++ c :: Nat.toDigits 10 n') : a = a' ∧ n = n' := by
  have free (k : Nat) : c ∉ Nat.toDigits 10 k := by
    intro there
    have digit := Nat.isDigit_of_mem_toDigits (by decide) (by decide) there
    rw [noDigit] at digit
    contradiction
  obtain ⟨front, digits⟩ := append_cons_inj (free n) (free n') same
  have numbers := congrArg (Nat.ofDigitChars 10 · 0) digits
  exact ⟨front, by simpa only [Nat.ofDigitChars_ten_toDigits] using numbers⟩

end Text
