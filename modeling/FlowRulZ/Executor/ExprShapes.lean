import FlowRulZ.Executor.Expr
import FlowRulZ.Lib.Traverse

/-! # The parser of map expressions

The parts of a text are shorter than the text, so `parse_expr` always comes to an end.  Its slices stay in
range, except for one: a quotation mark that stands alone is taken for both ends of a literal.
-/

namespace FlowRulZ.Expr

open List Text

variable {platform : Platform}

theorem isFieldChar_ne {c d : Char} (plain : isFieldChar platform c = true) (ascii : d.toNat < 128)
    (sign : (d.isAlphanum || d = '_' || d = '.') = false) : c ≠ d := by
  rintro rfl
  rw [isFieldChar, platform.alphanumeric_ascii c ascii, sign] at plain
  cases plain

theorem isFieldChar_dark {c : Char} (plain : isFieldChar platform c = true) : isWhitespace c = false := by
  by_contra blank
  rw [Bool.not_eq_false] at blank
  rw [isFieldChar, platform.alphanumeric_dark c blank] at plain
  have named : c = '_' ∨ c = '.' := by simpa using plain
  rcases named with rfl | rfl
  · exact absurd blank (by decide)
  · exact absurd blank (by decide)

theorem isValidField_iff {s : String} :
    isValidField platform s = true ↔ s ≠ "" ∧ ∀ c ∈ s.toList, isFieldChar platform c = true := by
  rw [isValidField, Bool.and_eq_true_iff]
  simp

theorem trim_of_fieldChars {s : String} (chars : ∀ c ∈ s.toList, isFieldChar platform c = true) : trim s = s :=
  trim_eq_self fun c inside => isFieldChar_dark (chars c inside)

variable {input : String}

theorem argText_slice {before part after : List Char} (whole : input.toList = before ++ part ++ after) :
    ∃ texts, argText (slice input (byteLen before) (byteLen (before ++ part))) = .ok texts ∧
      ∀ text ∈ texts, text.length ≤ input.length := by
  rw [byteLen_append, slice_part whole]
  refine ⟨_, rfl, ?_⟩
  intro text member
  dsimp only at member
  split_ifs at member with blank
  · cases member
  · calc text.length = (trim (String.ofList part)).length := by rw [mem_singleton.mp member]
      _ ≤ (String.ofList part).length := length_trim_le _
      _ ≤ input.length := by
          rw [← String.length_toList, ← String.length_toList, whole, String.toList_ofList]
          simp only [length_append]
          omega

/-- The loop cuts the text between characters only: what it has read lies before the part or in it. -/
theorem argTextsLoop_ok (chars before part : List Char) (whole : input.toList = before ++ part ++ chars)
    (depth : Int) (quote : Option Char) :
    ∃ texts, argTextsLoop input chars (byteLen (before ++ part)) (byteLen before) depth quote = .ok texts ∧
      ∀ text ∈ texts, text.length ≤ input.length := by
  induction chars generalizing before part depth quote with
  | nil => exact ⟨[], by cases quote <;> rfl, forall_mem_nil _⟩
  | cons c rest ih =>
    have longer : input.toList = before ++ (part ++ [c]) ++ rest := by
      rw [whole]
      simp
    have next : byteLen (before ++ part) + c.utf8Size = byteLen (before ++ (part ++ [c])) := by
      simp [byteLen]
      omega
    cases quote with
    | some quote =>
      rw [argTextsLoop]
      split
      -- inside quotation marks the part goes on to the end of the text
      · have complete : input.toList = before ++ (part ++ c :: rest) ++ [] := by
          rw [whole]
          simp
        rw [sliceFrom_eq_slice, len, complete, append_nil]
        exact argText_slice complete
      · rw [next]
        exact ih before (part ++ [c]) longer depth _
    | none =>
      have cut : ∃ texts, argText (slice input (byteLen before) (if rest.isEmpty then
          byteLen (before ++ (part ++ [c])) else byteLen (before ++ part))) = .ok texts ∧
            ∀ text ∈ texts, text.length ≤ input.length := by
        split
        · exact argText_slice longer
        · exact argText_slice whole
      rw [argTextsLoop, next]
      split
      · exact ih before (part ++ [c]) longer depth _
      · split
        -- behind the comma a new part begins, with nothing read of it
        · have read : input.toList = before ++ (part ++ [c]) ++ [] ++ rest := by rw [longer, append_nil]
          obtain ⟨first, found, short⟩ := cut
          obtain ⟨later, found', short'⟩ := ih (before ++ (part ++ [c])) [] read (deeper depth c) none
          rw [append_nil] at found'
          refine ⟨first ++ later, ?_, ?_⟩
          · rw [found, found']
            rfl
          · intro text member
            exact (mem_append.mp member).elim (short text) (short' text)
        · exact ih before (part ++ [c]) longer _ _

theorem argTexts_ok (input : String) :
    ∃ texts, argTexts input = .ok texts ∧ ∀ text ∈ texts, text.length ≤ input.length :=
  argTextsLoop_ok input.toList [] [] rfl 0 none

/-- All parentheses and quotation marks that are open are closed behind a place, with no comma outside of them. -/
def Closed : List Char → Int → Option Char → Prop
  | [], depth, quote => depth = 0 ∧ quote = none
  | c :: rest, depth, some quote => Closed rest depth (if c = quote then none else some quote)
  | c :: rest, depth, none =>
    if c = '\'' ∨ c = '"' then Closed rest depth (some c)
    else ¬ (c = ',' ∧ deeper depth c = 0) ∧ Closed rest (deeper depth c) none

theorem argTextsLoop_closed (input : String) {chars : List Char} {depth : Int} {quote : Option Char} (closed :
    Closed chars depth quote) (some : chars ≠ []) (rest : List Char) (pos start : Nat)
    (ends : rest = [] → pos + byteLen chars = len input) :
    argTextsLoop input (chars ++ rest) pos start depth quote =
      if rest.isEmpty then argText (sliceFrom input start)
      else argTextsLoop input rest (pos + byteLen chars) start 0 none := by
  induction chars generalizing pos depth quote with
  | nil => exact absurd rfl some
  | cons c chars ih =>
    rw [byteLen_cons, ← Nat.add_assoc] at ends ⊢
    -- behind a character that is not the last one
    have later {depth quote} (closed : Closed chars depth quote) (more : (chars ++ rest).isEmpty = false) :
        argTextsLoop input (chars ++ rest) (pos + c.utf8Size) start depth quote = if rest.isEmpty then
          argText (sliceFrom input start)
          else argTextsLoop input rest (pos + c.utf8Size + byteLen chars) start 0 none := by
      cases chars with
      | nil =>
        obtain ⟨rfl, rfl⟩ := closed
        rw [nil_append] at more
        rw [more]
        rfl
      | cons d chars => exact ih closed (cons_ne_nil _ _) _ ends
    rw [cons_append]
    cases last : (chars ++ rest).isEmpty with
    | true =>
      obtain ⟨rfl, rfl⟩ := append_eq_nil_iff.mp (isEmpty_iff.mp last)
      cases quote with
      | some quote => rfl
      | none =>
        rw [Closed] at closed
        split_ifs at closed with mark
        · cases closed.2
        · have stop : pos + c.utf8Size = len input := ends rfl
          change argTextsLoop input [c] pos start depth none = argText (sliceFrom input start)
          rw [argTextsLoop, if_neg mark, if_pos (.inr isEmpty_nil), isEmpty_nil, if_pos rfl, stop, ← sliceFrom_eq_slice]
          cases argText (sliceFrom input start) with
          | error e => rfl
          | ok part => exact congrArg Except.ok (append_nil part)
    | false =>
      cases quote with
      | some quote =>
        rw [argTextsLoop, last]
        exact later closed last
      | none =>
        rw [Closed] at closed
        rw [argTextsLoop, last]
        split_ifs at closed with mark
        · rw [if_pos mark]
          exact later closed last
        · rw [if_neg mark, if_neg (by simpa using closed.1)]
          exact later closed.2 last

variable {pieces : List String}

theorem argTextsLoop_comma {piece : String} {rest : List Char} {pos start : Nat} {texts later : List String}
    (more : rest.isEmpty = false) (cut : slice input start pos = some piece) (alone : argText (some piece) = .ok texts)
    (onward : argTextsLoop input rest (pos + 1) (pos + 1) 0 none = .ok later) :
    argTextsLoop input (',' :: rest) pos start 0 none = .ok (texts ++ later) := by
  have size : ','.utf8Size = 1 := by decide
  have level : deeper 0 ',' = 0 := by decide
  rw [argTextsLoop, if_neg (by decide), level, if_pos (.inl ⟨rfl, rfl⟩), more, if_neg Bool.false_ne_true, cut, alone, size,
    onward]
  rfl

theorem argTextsLoop_join (some : pieces ≠ []) (before : List Char)
    (closed : ∀ piece ∈ pieces, (trim piece).isEmpty = false ∧ Closed piece.toList 0 none)
    (whole : input.toList = before ++ (join "," pieces).toList) :
    argTextsLoop input (join "," pieces).toList (byteLen before) (byteLen before) 0 none = .ok (pieces.map trim) := by
  induction pieces generalizing before with
  | nil => exact absurd rfl some
  | cons piece rest ih =>
    obtain ⟨filled, balanced⟩ := closed piece mem_cons_self
    have alone : argText (.some piece) = .ok [trim piece] := by
      simp [argText, inBounds, Except.map, filled]
    have written : ∀ {text : String}, (trim text).isEmpty = false → text.toList ≠ [] := by
      intro text filled none
      rw [String.toList_eq_nil_iff.mp none] at filled
      cases filled
    have loop := argTextsLoop_closed input balanced (written filled)
    cases rest with
    | nil =>
      have middle : input.toList = before ++ piece.toList ++ [] := by rw [whole, join, append_nil]
      have cut := slice_part middle
      have ends : byteLen before + byteLen piece.toList = len input := by
        rw [len, middle, append_nil, byteLen_append]
      rw [join, ← append_nil piece.toList, loop [] _ _ (fun _ => ends), isEmpty_nil, if_pos rfl,
        sliceFrom_eq_slice, ← ends, cut, String.ofList_toList, alone]
      rfl
    | cons next rest =>
      have parts : (join "," (piece :: next :: rest)).toList =
          piece.toList ++ ',' :: (join "," (next :: rest)).toList := by
        rw [join_cons_cons]
        simp
      rw [parts] at whole
      have middle : input.toList = before ++ piece.toList ++ ',' :: (join "," (next :: rest)).toList := by
        rw [whole, append_assoc]
      have cut := slice_part middle
      rw [String.ofList_toList] at cut
      have behind : input.toList = (before ++ piece.toList ++ [',']) ++ (join "," (next :: rest)).toList := by
        rw [middle]
        simp
      -- the loop counts the comma as one byte
      have place : byteLen (before ++ piece.toList ++ [',']) = byteLen before + byteLen piece.toList + 1 := by
        rw [byteLen_append, byteLen_append]
        rfl
      have later := ih (cons_ne_nil _ _) _ (fun piece member => closed piece (mem_cons_of_mem _ member)) behind
      rw [place] at later
      have more : (join "," (next :: rest)).toList.isEmpty = false := by
        obtain ⟨tail, joined⟩ := join_cons_append "," next rest
        have some := written (closed next (by simp)).1
        rw [joined, String.toList_append, isEmpty_eq_false_iff]
        exact append_ne_nil_of_left_ne_nil some _
      rw [parts, loop (',' :: _) _ _ (by simp), isEmpty_cons]
      exact argTextsLoop_comma more cut alone later

/-- A character that `parse_args` passes over. -/
def Inert (c : Char) : Prop := c ≠ '\'' ∧ c ≠ '"' ∧ c ≠ '(' ∧ c ≠ ')' ∧ c ≠ ','

theorem closed_of_inert {chars : List Char} (inert : ∀ c ∈ chars, Inert c) : Closed chars 0 none := by
  induction chars with
  | nil => exact ⟨rfl, rfl⟩
  | cons c chars ih =>
    obtain ⟨⟨single, double, opens, closes, comma⟩, later⟩ := forall_mem_cons.mp inert
    simpa [Closed, deeper, single, double, opens, closes, comma] using ih later

theorem argTexts_join (some : pieces ≠ [])
    (closed : ∀ piece ∈ pieces, (trim piece).isEmpty = false ∧ Closed piece.toList 0 none) :
    argTexts (join "," pieces) = .ok (pieces.map trim) :=
  argTextsLoop_join some [] closed rfl

def parseArgs (platform : Platform) (input : String) : Except (Fault String) (List Expr) := do
  let parts ← argTexts input
  parts.mapM (parse platform)

/-- Arguments joined by commas are parsed one by one. -/
theorem parseArgs_join (platform : Platform) (texts : List String) (some : texts ≠ [])
    (closed : ∀ text ∈ texts, (Text.trim text).isEmpty = false ∧ Closed text.toList 0 none) :
    parseArgs platform (Text.join "," texts) = texts.mapM fun text => parse platform (Text.trim text) := by
  rw [parseArgs, argTexts_join some closed]
  exact mapM_map

theorem parseArgs_join_quoted : let texts := ["f(a, ')')", " 'x,y'"]
    Text.join "," texts = "f(a, ')'), 'x,y'" ∧
      parseArgs .ascii (Text.join "," texts) = texts.mapM fun text => parse .ascii (Text.trim text) := by
  intro texts
  refine ⟨by decide, parseArgs_join .ascii texts (cons_ne_nil _ _) ?_⟩
  simp [texts, Closed, deeper]
  decide

variable {mark : Char}

theorem quoted_cases (starts : startsWith input (String.singleton mark) = true)
    (ends : endsWith input (String.singleton mark) = true) :
    input = String.singleton mark ∨ ∃ s, input = String.singleton mark ++ s ++ String.singleton mark := by
  obtain ⟨rest, rfl⟩ := startsWith_iff.mp starts
  obtain ⟨front, whole⟩ := endsWith_iff.mp ends
  have chars : mark :: rest.toList = front.toList ++ [mark] := by
    simpa using congrArg String.toList whole
  cases front' : front.toList with
  | nil =>
    left
    have none : rest.toList = [] := by simpa [front'] using chars
    rw [String.toList_eq_nil_iff.mp none, String.append_empty]
  | cons c more =>
    right
    rw [front', cons_append, List.cons.injEq] at chars
    refine ⟨String.ofList more, String.toList_injective ?_⟩
    simp [chars.2]

theorem inner_between (one : mark.utf8Size = 1) (s : String) :
    inner (String.singleton mark ++ s ++ String.singleton mark) = .ok s := by
  have cut : slice (String.singleton mark ++ s ++ String.singleton mark) 1
      (len (String.singleton mark ++ s ++ String.singleton mark) - 1) = some s := by
    refine slice_eq_some.mpr ⟨String.singleton mark, String.singleton mark, rfl, (len_singleton one).symm, ?_⟩
    rw [len_append, len_append, len_singleton one]
    omega
  rw [inner, cut]
  rfl

theorem opening_split {n : Nat} (found : opening input = some n) :
    ∃ name args, input = name ++ "(" ++ args ++ ")" ∧ n = len name := by
  unfold opening at found
  split_ifs at found with ends
  obtain ⟨name, rest, rfl, rfl⟩ := find_split found
  obtain ⟨front, whole⟩ := endsWith_iff.mp ends
  have chars : name.toList ++ '(' :: rest.toList = front.toList ++ [')'] := by
    simpa using congrArg String.toList whole
  rcases eq_nil_or_concat rest.toList with none | ⟨args, last, more⟩
  · rw [none] at chars
    have same := (append_inj' chars rfl).2
    simp at same
  · rw [more, concat_eq_append, ← cons_append, ← append_assoc] at chars
    have same := (append_inj' chars rfl).2
    refine ⟨name, String.ofList args, String.toList_injective ?_, rfl⟩
    simp [more, List.cons.inj same]

theorem callShape_split (name args : String) : callShape (name ++ "(" ++ args ++ ")") (len name) =
    (if (trim args).isEmpty then .ok [] else argTexts args).map (.call (trim name)) := by
  have front : sliceTo (name ++ "(" ++ args ++ ")") (len name) = some name := by
    rw [String.append_assoc, String.append_assoc]
    exact sliceTo_append _ _
  have one : len "(" = 1 ∧ len ")" = 1 := by decide
  have middle : slice (name ++ "(" ++ args ++ ")") (len name + 1)
      (len (name ++ "(" ++ args ++ ")") - 1) = some args := by
    refine slice_eq_some.mpr ⟨name ++ "(", ")", rfl, ?_, ?_⟩
    · rw [len_append, one.1]
    · simp only [len_append]
      omega
  simp only [callShape, front, middle, inBounds, bind, Except.bind]
  split_ifs
  · rfl
  · cases argTexts args <;> rfl

/-- A text that ends with a parenthesis can be cut at its first one. -/
theorem callShape_ok {n : Nat} (found : opening input = some n) :
    ∃ name texts, callShape input n = .ok (.call name texts) ∧ ∀ text ∈ texts, text.length < input.length := by
  obtain ⟨name, args, rfl, rfl⟩ := opening_split found
  have shorter : args.length < (name ++ "(" ++ args ++ ")").length := by
    have one : "(".length = 1 := rfl
    simp only [String.length_append]
    omega
  rw [callShape_split]
  split_ifs with blank
  · exact ⟨_, [], rfl, forall_mem_nil _⟩
  · obtain ⟨texts, read, short⟩ := argTexts_ok args
    exact ⟨_, texts, by rw [read]; rfl, fun text member => (short text member).trans_lt shorter⟩

theorem sumParts_some {parts : List String} (found : sumParts input = some parts) :
    '+' ∈ input.toList ∧ parts = (split input '+').map trim := by
  unfold sumParts at found
  split_ifs at found with plus
  dsimp only at found
  split_ifs at found
  cases found
  exact ⟨of_decide_eq_true (Bool.and_eq_true_iff.mp plus).1, rfl⟩

theorem opening_of_not_mem (free : '(' ∉ input.toList) : opening input = none := by
  cases found : opening input with
  | none => rfl
  | some n =>
    obtain ⟨name, args, rfl, -⟩ := opening_split found
    simp at free

theorem sumParts_of_not_mem (free : '+' ∉ input.toList) : sumParts input = none := by
  cases found : sumParts input with
  | none => rfl
  | some parts => exact absurd (sumParts_some found).1 free

theorem sumParts_eq (plus : '+' ∈ input.toList) (front : startsWith input "+" = false)
    (free : '(' ∉ input.toList) (free' : ')' ∉ input.toList) :
    sumParts input = some ((split input '+').map trim) := by
  have flat : ((Text.split input '+').all fun part => !Text.contains part '(' && !Text.contains part ')') = true := by
    rw [all_eq_true]
    intro part member
    have out : '(' ∉ part.toList := fun inside => free (mem_of_mem_split member inside)
    have out' : ')' ∉ part.toList := fun inside => free' (mem_of_mem_split member inside)
    simp [Text.contains, out, out']
  have inside : contains input '+' = true := decide_eq_true plus
  simp only [sumParts, inside, front, flat, Bool.not_false, Bool.and_self, if_true]

theorem literal_spec {input quote : String} (sign : quote = String.singleton mark) (one : mark.utf8Size = 1)
    (quoted : (startsWith input quote && endsWith input quote) = true) :
    input = quote ∧ (inner input).map Shape.literal = .error .panic ∨
      1 < input.length ∧ ∃ s, (inner input).map Shape.literal = .ok (.literal s) := by
  subst sign
  obtain ⟨starts, ends⟩ := Bool.and_eq_true_iff.mp quoted
  rcases quoted_cases starts ends with rfl | ⟨s, rfl⟩
  · left
    rw [inner, len_singleton one]
    exact ⟨rfl, rfl⟩
  · right
    rw [inner_between one]
    refine ⟨?_, s, rfl⟩
    simp only [String.length_append, String.length_singleton]
    omega

/-- A quotation mark that stands alone. -/
def LoneQuote (text : String) : Prop := Text.trim text = "\"" ∨ Text.trim text = "'"

/-- The only slice of `parse_expr` and `parse_args` that is out of range is the one of a lone quotation mark. -/
theorem shape_spec (platform : Platform) (text : String) : LoneQuote text ∧ shape platform text = .error .panic ∨
      ¬ LoneQuote text ∧ ∃ found, shape platform text = .ok found ∧ ∀ part ∈ found.parts, part.length < text.length := by
  have short := length_trim_le text
  unfold shape LoneQuote
  -- from here on only the trimmed text is looked at
  generalize trim text = input at short
  have long : 1 < input.length → ¬ (input = "\"" ∨ input = "'") := by
    rintro more (rfl | rfl)
    · exact absurd more (by decide)
    · exact absurd more (by decide)
  have two : "\"" = String.singleton '"' := rfl
  have one : "'" = String.singleton '\'' := rfl
  by_cases double : (startsWith input "\"" && endsWith input "\"") = true
  · rw [if_pos double]
    rcases literal_spec two (by decide) double with ⟨rfl, panics⟩ | ⟨more, s, read⟩
    · exact .inl ⟨.inl rfl, panics⟩
    · exact .inr ⟨long more, _, read, forall_mem_nil _⟩
  rw [if_neg double]
  by_cases single : (startsWith input "'" && endsWith input "'") = true
  · rw [if_pos single]
    rcases literal_spec one (by decide) single with ⟨rfl, panics⟩ | ⟨more, s, read⟩
    · exact .inl ⟨.inr rfl, panics⟩
    · exact .inr ⟨long more, _, read, forall_mem_nil _⟩
  rw [if_neg single]
  right
  constructor
  · rintro (rfl | rfl)
    · exact double (by decide)
    · exact single (by decide)
  split
  · exact ⟨_, rfl, forall_mem_nil _⟩
  · next n called =>
      obtain ⟨name, texts, read, shorter⟩ := callShape_ok called
      exact ⟨_, read, fun part member => (shorter part member).trans_le short⟩
  · next parts summed =>
      obtain ⟨plus, rfl⟩ := sumParts_some summed
      refine ⟨_, rfl, ?_⟩
      intro part member
      obtain ⟨piece, there, rfl⟩ := mem_map.mp member
      calc (trim piece).length ≤ piece.length := length_trim_le piece
        _ < input.length := length_lt_of_mem_split plus there
        _ ≤ text.length := short
  · refine ⟨_, rfl, ?_⟩
    split_ifs
    · exact forall_mem_nil _
    · exact forall_mem_nil _

theorem shape_call {name args : String} (free : '(' ∉ name.toList) (trimmed : trim name = name)
    (ends : trim (name ++ "(" ++ args ++ ")") = name ++ "(" ++ args ++ ")")
    (double : startsWith (name ++ "(" ++ args ++ ")") "\"" = false)
    (single : startsWith (name ++ "(" ++ args ++ ")") "'" = false)
    (noNumber : Float64.parseBits (name ++ "(" ++ args ++ ")") = none) :
    shape platform (name ++ "(" ++ args ++ ")") =
      (if (trim args).isEmpty then .ok [] else argTexts args).map (.call name) := by
  have opened : opening (name ++ "(" ++ args ++ ")") = some (len name) := by
    rw [opening, if_pos (endsWith_iff.mpr ⟨_, rfl⟩), String.append_assoc]
    exact find_singleton "(" rfl free
  unfold shape
  rw [ends]
  dsimp only
  rw [double, single, noNumber, opened]
  have read := callShape_split name args
  rw [trimmed] at read
  exact read

theorem shape_field {path : String} (valid : isValidField platform path = true) (noNumber : Float64.parseBits path = none) :
    shape platform path = .ok (.field path) := by
  obtain ⟨-, chars⟩ := isValidField_iff.mp valid
  have out : ∀ {c : Char}, c.toNat < 128 → (c.isAlphanum || c = '_' || c = '.') = false → c ∉ path.toList :=
    fun ascii sign inside => isFieldChar_ne (chars _ inside) ascii sign rfl
  have opened : '(' ∉ path.toList := out (by decide) (by decide)
  have plus : '+' ∉ path.toList := out (by decide) (by decide)
  have double : '"' ∉ path.toList := out (by decide) (by decide)
  have single : '\'' ∉ path.toList := out (by decide) (by decide)
  unfold shape
  rw [trim_of_fieldChars chars]
  dsimp only
  rw [startsWith_of_not_mem "\"" double (by decide), startsWith_of_not_mem "'" single (by decide), Bool.false_and,
    Bool.false_and, noNumber, opening_of_not_mem opened, sumParts_of_not_mem plus, valid]
  rfl

variable {text : String}

theorem shape_parts_of_not_mem {found : Shape} (plus : '+' ∉ text.toList) (free : '(' ∉ text.toList)
    (read : shape platform text = .ok found) : found.parts = [] := by
  have called : opening (trim text) = none := opening_of_not_mem fun inside => free (mem_of_mem_trim inside)
  have summed : sumParts (trim text) = none := sumParts_of_not_mem fun inside => plus (mem_of_mem_trim inside)
  have literal : ∀ s : Except (Fault String) String, s.map Shape.literal = .ok found → found.parts = [] := by
    intro s read
    cases s <;> cases read
    rfl
  simp only [shape, called, summed] at read
  split at read
  · exact literal _ read
  split at read
  · exact literal _ read
  cases number : Float64.parseBits (trim text) with
  | some bits =>
    simp only [number] at read
    cases read
    rfl
  | none =>
    simp only [number] at read
    cases read
    split <;> rfl

theorem parseWithin_stable {depth depth' : Nat} (text : String) (fits : text.length < depth) (fits' : text.length < depth') :
    parseWithin platform depth text = parseWithin platform depth' text := by
  induction depth generalizing text depth' with
  | zero => omega
  | succ depth ih =>
    obtain ⟨depth', rfl⟩ := Nat.exists_eq_add_one_of_ne_zero (Nat.ne_zero_of_lt fits')
    rw [parseWithin, parseWithin]
    rcases shape_spec platform text with ⟨-, panics⟩ | ⟨-, found, read, shorter⟩
    · rw [panics]
      rfl
    · have same : found.parts.mapM (parseWithin platform depth) = found.parts.mapM (parseWithin platform depth') := by
        refine Traverse.mapM_congr ?_
        intro part member
        have small := shorter part member
        exact ih part (by omega) (by omega)
      rw [read]
      exact congrArg (fun parts => parts.map found.build) same

theorem parse_eq (text : String) : parse platform text =
    shape platform text >>= fun found => (found.parts.mapM (parse platform)).map found.build := by
  rw [parse, parseWithin]
  rcases shape_spec platform text with ⟨-, panics⟩ | ⟨-, found, read, shorter⟩
  · simp only [panics, bind, Except.bind]
  · have same : found.parts.mapM (parseWithin platform text.length) = found.parts.mapM (parse platform) := by
      refine Traverse.mapM_congr ?_
      intro part member
      exact parseWithin_stable part (shorter part member) (Nat.lt_succ_self _)
    rw [read]
    exact congrArg (fun parts => parts.map found.build) same

theorem parse_of_not_mem (plus : '+' ∉ text.toList) (free : '(' ∉ text.toList) (fine : ¬ LoneQuote text) :
    ∃ expr, parse platform text = .ok expr := by
  rcases shape_spec platform text with ⟨lone, -⟩ | ⟨-, found, read, -⟩
  · exact absurd lone fine
  · refine ⟨found.build [], ?_⟩
    rw [parse_eq, read]
    change (found.parts.mapM (parse platform)).map found.build = _
    rw [shape_parts_of_not_mem plus free read]
    rfl

theorem mapM_parse_fields {paths : List String}
    (fields : ∀ path ∈ paths, isValidField platform path = true ∧ Float64.parseBits path = none) :
    paths.mapM (parse platform) = .ok (paths.map .field) := by
  induction paths with
  | nil => rfl
  | cons path paths ih =>
    obtain ⟨valid, noNumber⟩ := fields path mem_cons_self
    rw [mapM_cons, parse_eq, shape_field valid noNumber, ih fun path later => fields path (mem_cons_of_mem _ later)]
    rfl

/-- The texts that `parse_expr` is called with. -/
inductive Reaches (platform : Platform) : String → String → Prop where
  | self (text : String) : Reaches platform text text
  | part {text part inside : String} {found : Shape} : shape platform text = .ok found → part ∈ found.parts →
      Reaches platform part inside → Reaches platform text inside

theorem mapM_parse_eq_panic {texts : List String} (member : text ∈ texts)
    (only : ∀ text ∈ texts, ∀ e, parse platform text = .error e → e = .panic) (failed : parse platform text = .error .panic) :
    texts.mapM (parse platform) = .error .panic := by
  cases parsed : texts.mapM (parse platform) with
  | error e =>
    obtain ⟨before, first, after, rfl, -, failed'⟩ := (Traverse.mapM_eq_error texts).mp parsed
    rw [only first (by simp) e failed']
  | ok exprs =>
    obtain ⟨expr, ok⟩ := Traverse.ok_of_mem_mapM parsed member
    rw [failed] at ok
    cases ok

theorem parse_eq_error (text : String) (e : Fault String) : parse platform text = .error e ↔
    e = .panic ∧ ∃ inside, Reaches platform text inside ∧ LoneQuote inside := by
  induction length : text.length using Nat.strong_induction_on generalizing text e with
  | _ n ih =>
    subst length
    rw [parse_eq, Traverse.bind_eq_error]
    rcases shape_spec platform text with ⟨lone, panics⟩ | ⟨fine, found, read, shorter⟩
    · rw [panics]
      constructor
      · rintro (failed | ⟨found, read, -⟩)
        · cases failed
          exact ⟨rfl, text, .self text, lone⟩
        · cases read
      · rintro ⟨rfl, -⟩
        exact .inl rfl
    · constructor
      · rintro (failed | ⟨found', read', failed⟩)
        · rw [read] at failed
          cases failed
        · rw [read] at read'
          cases read'
          obtain ⟨before, part, after, whole, -, failed⟩ := (Traverse.mapM_eq_error _).mp (Traverse.map_eq_error.mp failed)
          have member : part ∈ found.parts := by simp [whole]
          obtain ⟨rfl, inside, reached, lone⟩ := (ih _ (shorter part member) part e rfl).mp failed
          exact ⟨rfl, inside, .part read member reached, lone⟩
      · rintro ⟨rfl, inside, reached, lone⟩
        refine .inr ⟨found, read, Traverse.map_eq_error.mpr ?_⟩
        cases reached with
        | self => exact absurd lone fine
        | part read' member later =>
          rw [read] at read'
          cases read'
          have failed := (ih _ (shorter _ member) _ .panic rfl).mpr ⟨rfl, inside, later, lone⟩
          refine mapM_parse_eq_panic member ?_ failed
          intro text' member' e failed'
          exact ((ih _ (shorter text' member') text' e rfl).mp failed').1

end FlowRulZ.Expr
