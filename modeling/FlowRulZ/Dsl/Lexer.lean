import FlowRulZ.Bytecode.Plan
import FlowRulZ.Dsl.Ast
import FlowRulZ.Lib.Slices
import FlowRulZ.Lib.Traverse

/-! # The lexer

`lex` cuts the text of a rule into words and classifies each of them.  Most letters look at the second
byte of a word, as a slice.  That slice panics where the second character takes more than one byte.
-/

open List

namespace FlowRulZ

open Text

inductive LexError where
  | unknownToken (word : String)
  | invalidTimeout (word : String)
  | invalidBuffer (word : String)
  | invalidRetry (word : String)
  | invalidChunk (word : String)
  | invalidDag (word : String)
  | invalidSchema (word : String)
  | emptyOperand (word : String)
  | invalidGateOp (word : String)
  | invalidJmp (word : String)
  | invalidDelay (word : String)
  deriving Repr, DecidableEq

abbrev Lexed (α : Type) := Except (Fault LexError) α

namespace Lexer

/-- A slice panics if its ends are not between characters. -/
def orPanic {α : Type} : Option α → Lexed α
  | some a => .ok a
  | none => .error .panic

def orErr {α : Type} (e : LexError) : Option α → Lexed α
  | some a => .ok a
  | none => .error (.err e)

def parseCommaTargets (s tokenName : String) : Lexed (List String) :=
  if s.isEmpty then .error (.err (.emptyOperand tokenName))
  else .ok (((Text.split s ',').map Text.trim).filter fun t => !t.isEmpty)

def parseRetry (word : String) : Lexed Token := do
  let rest ← orPanic (Text.sliceFrom word 1)
  if rest.isEmpty then .error (.err (.invalidRetry word))
  else
    match Text.find rest ":" with
    | some colonPos => do
      let countStr ← orPanic (Text.sliceTo rest colonPos)
      let strategyPart ← orPanic (Text.sliceFrom rest (colonPos + 1))
      let count ← orErr (.invalidRetry word) (Text.parseUInt (2 ^ 8) countStr)
      match Text.find strategyPart ":" with
      | some secondColon => do
        let strategy ← orPanic (Text.sliceTo strategyPart secondColon)
        let fixed ← orPanic (Text.sliceFrom strategyPart (secondColon + 1))
        let fixedMs ← orErr (.invalidRetry word) (Text.parseUInt (2 ^ 32) fixed)
        return .retry (UInt8.ofNat count) (some strategy) (some (UInt32.ofNat fixedMs))
      | none => return .retry (UInt8.ofNat count) (some strategyPart) none
    | none => do
      let count ← orErr (.invalidRetry word) (Text.parseUInt (2 ^ 8) rest)
      return .retry (UInt8.ofNat count) none none

def parseChunk (word : String) : Lexed Token := do
  let body ← orPanic (Text.sliceFrom word 6)
  match Text.split body ':' with
  | [first, mode] => do
    let count ← orErr (.invalidChunk word) (Text.parseUInt (2 ^ 8) first)
    if mode ≠ "seq" ∧ mode ≠ "par" then .error (.err (.invalidChunk word))
    else return .chunk (UInt8.ofNat count) mode
  | _ => .error (.err (.invalidChunk word))

/-- The loop of `parse_gate` over the operators. -/
def gateBy (word body : String) : List String → Lexed Token
  | [] => .error (.err (.invalidGateOp word))
  | op :: operators =>
    match Text.find body op with
    | none => gateBy word body operators
    | some pos => do
      let before ← orPanic (Text.sliceTo body pos)
      let value ← orPanic (Text.sliceFrom body (pos + Text.len op))
      let field := Text.trimEndMatches before '.'
      if field.isEmpty || value.isEmpty then .error (.err (.emptyOperand word))
      else return .gate field op value

def parseGate (word : String) : Lexed Token := do
  let body ← orPanic (Text.sliceFrom word 2)
  gateBy word body ["==", "!=", ">=", "<=", ">", "<", "contains"]

/-- What stands behind `word.len() < least || &word[1..2] != ":"`; a word that meets this is unknown. -/
def behindColon (least : Nat) (word : String) (token : Lexed Token) : Lexed Token :=
  if Text.len word < least then .error (.err (.unknownToken word))
  else do
    let second ← orPanic (Text.slice word 1 2)
    if second ≠ ":" then .error (.err (.unknownToken word)) else token

/-- The word behind its first two bytes, as the one operand of a token. -/
def operand (word : String) (empty : LexError) (token : String → Token) : Lexed Token := do
  let target ← orPanic (Text.sliceFrom word 2)
  if target.isEmpty then .error (.err empty) else return token target

/-- The word behind its first two bytes, as a list of targets. -/
def targets (word tokenName : String) (token : List String → Token) : Lexed Token := do
  let rest ← orPanic (Text.sliceFrom word 2)
  let names ← parseCommaTargets rest tokenName
  if names.isEmpty then .error (.err (.emptyOperand word)) else return token names

def number (word : String) (invalid : LexError) (token : UInt64 → Token) : Lexed Token := do
  let digits ← orPanic (Text.sliceFrom word 1)
  let n ← orErr invalid (Text.parseUInt (2 ^ 64) digits)
  return token (UInt64.ofNat n)

/-- The match of `classify` over the first byte: the letters it names take one byte, and no byte of another character is
one of them. -/
def byFirst (word : String) : Char → Lexed Token
  | 'n' => behindColon 3 word (operand word (.emptyOperand word) .next)
  | 'a' => behindColon 3 word (operand word (.emptyOperand word) .async)
  | 'p' => behindColon 3 word (targets word "p" .parallel)
  | 'c' => if word = "c" then .ok .collect else .error (.err (.unknownToken word))
  | 'f' => behindColon 3 word (operand word (.emptyOperand word) .fallback)
  | 'g' => behindColon 4 word (parseGate word)
  | 's' => behindColon 3 word (operand word (.emptyOperand word) .split)
  | 'm' => behindColon 3 word (operand word (.emptyOperand word) .map)
  -- the whole word is the expression
  | 'w' => behindColon 3 word (if word.isEmpty then .error (.err (.emptyOperand word)) else .ok (.map word))
  | 'e' => behindColon 3 word (targets word "e" .emit)
  | 'd' => if Text.len word = 1 then .ok .drop else .error (.err (.unknownToken word))
  | 'b' =>
    if Text.len word < 2 then .error (.err (.invalidBuffer word)) else number word (.invalidBuffer word) .buffer
  | 'k' => behindColon 3 word (operand word (.emptyOperand word) .key)
  | 'r' => parseRetry word
  | 't' =>
    if word = "t" then .error (.err (.invalidTimeout word)) else number word (.invalidTimeout word) .timeout
  | '|' => if Text.len word = 1 then .ok .pipe else .error (.err (.unknownToken word))
  -- here the test of the colon is the guard of the arm, and the last arm has the same error
  | 'j' => behindColon 3 word (operand word (.invalidJmp word) .jmp)
  | _ => .error (.err (.unknownToken word))

def keyword (body : String) (empty : LexError) (token : String → Token) : Lexed Token :=
  if body.isEmpty then .error (.err empty) else .ok (token body)

def classify (word : String) : Lexed Token :=
  match word.toList with
  | [] => .error (.err (.unknownToken "empty token"))
  | first :: _ =>
    if Text.startsWith word "chunk:" then parseChunk word
    else
      match Text.stripPrefix word "dag:", Text.stripPrefix word "delay:", Text.stripPrefix word "schema:" with
      | some body, _, _ => keyword body (.invalidDag word) .dag
      | none, some rest, _ => do
        let ms ← orErr (.invalidDelay word) (Text.parseUInt (2 ^ 64) rest)
        return .delay (UInt64.ofNat ms)
      | none, none, some body => keyword body (.invalidSchema word) .schema
      | none, none, none =>
        if Text.endsWith word ":" ∧ 2 < Text.len word then do
          let label ← orPanic (Text.sliceTo word (Text.len word - 1))
          return .label label
        else byFirst word first

def Returns {α : Type} (x : Lexed α) : Prop := x ≠ .error .panic

section Returns

variable {α β : Type}

theorem returns_ok (a : α) : Returns (.ok a) := by
  simp [Returns]

theorem returns_err (e : LexError) : Returns (.error (.err e) : Lexed α) := by
  simp [Returns]

theorem Returns.bind {x : Lexed α} {f : α → Lexed β} (first : Returns x) (then_ : ∀ a, x = .ok a → Returns (f a)) :
    Returns (x >>= f) := by
  cases x with
  | error e => exact fun panics => first (by simpa [Bind.bind, Except.bind] using panics)
  | ok a => exact then_ a rfl

theorem returns_orErr (e : LexError) (o : Option α) : Returns (orErr e o) := by
  cases o with
  | none => exact returns_err e
  | some a => exact returns_ok a

theorem returns_orPanic {o : Option α} {a : α} (there : o = some a) : Returns (orPanic o) := by
  rw [there]
  exact returns_ok a

end Returns

variable {word : String}

theorem parseChunk_returns (starts : startsWith word "chunk:" = true) : Returns (parseChunk word) := by
  obtain ⟨rest, rfl⟩ := startsWith_iff.mp starts
  refine (returns_orPanic (sliceFrom_append "chunk:" rest)).bind ?_
  intro body _
  split
  · refine (returns_orErr _ _).bind ?_
    intro count _
    split_ifs
    · exact returns_err _
    · exact returns_ok _
  · exact returns_err _

theorem parseRetry_returns {word rest : String} (starts : word = "r" ++ rest) : Returns (parseRetry word) := by
  have cut : sliceFrom word 1 = some rest := starts ▸ sliceFrom_append "r" rest
  refine (returns_orPanic cut).bind ?_
  intro rest _
  split_ifs
  · exact returns_err _
  split
  · rename_i colonPos found
    obtain ⟨before, after, first, second⟩ := find_some found
    refine (returns_orPanic first).bind fun countStr _ => (returns_orPanic second).bind fun strategyPart _ => ?_
    refine (returns_orErr _ _).bind fun count _ => ?_
    split
    · rename_i secondColon found
      obtain ⟨before, after, first, second⟩ := find_some found
      refine (returns_orPanic first).bind fun strategy _ => (returns_orPanic second).bind fun fixed _ => ?_
      exact (returns_orErr _ _).bind fun fixedMs _ => returns_ok _
    · exact returns_ok _
  · exact (returns_orErr _ _).bind fun count _ => returns_ok _

theorem gateBy_returns (word body : String) (operators : List String) : Returns (gateBy word body operators) := by
  induction operators with
  | nil => exact returns_err _
  | cons op operators ih =>
    unfold gateBy
    split
    · exact ih
    · rename_i pos found
      obtain ⟨before, after, first, second⟩ := find_some found
      refine (returns_orPanic first).bind fun before _ => (returns_orPanic second).bind fun value _ => ?_
      dsimp only
      split_ifs
      · exact returns_err _
      · exact returns_ok _

structure Colon (word : String) : Prop where
  parts : ∃ (c : Char) (rest : String), c.utf8Size = 1 ∧ word = String.singleton c ++ ":" ++ rest

theorem Colon.slice (colon : Colon word) : ∃ rest, sliceFrom word 2 = some rest := by
  obtain ⟨c, rest, one, rfl⟩ := colon.parts
  have length : len (String.singleton c ++ ":") = 2 := by
    rw [len_append, len_singleton one]
    rfl
  refine ⟨rest, ?_⟩
  rw [← length]
  exact sliceFrom_append _ rest

theorem Colon.gate (colon : Colon word) : Returns (parseGate word) := by
  obtain ⟨rest, cut⟩ := colon.slice
  exact (returns_orPanic cut).bind fun body _ => gateBy_returns word body _

theorem Colon.operand (colon : Colon word) (empty : LexError) (token : String → Token) :
    Returns (operand word empty token) := by
  obtain ⟨rest, cut⟩ := colon.slice
  refine (returns_orPanic cut).bind fun target _ => ?_
  split_ifs
  · exact returns_err _
  · exact returns_ok _

theorem Colon.targets (colon : Colon word) (tokenName : String) (token : List String → Token) :
    Returns (targets word tokenName token) := by
  obtain ⟨rest, cut⟩ := colon.slice
  refine (returns_orPanic cut).bind fun rest _ => ?_
  have named : Returns (parseCommaTargets rest tokenName) := by
    unfold parseCommaTargets
    split_ifs
    · exact returns_err _
    · exact returns_ok _
  refine named.bind fun names _ => ?_
  split_ifs
  · exact returns_err _
  · exact returns_ok _

theorem number_returns {c : Char} {rest : String} (one : c.utf8Size = 1)
    (starts : word = String.singleton c ++ rest) (invalid : LexError) (token : UInt64 → Token) :
    Returns (number word invalid token) := by
  have cut : sliceFrom word 1 = some rest := by
    rw [starts, ← len_singleton one]
    exact sliceFrom_append _ rest
  exact (returns_orPanic cut).bind fun digits _ => (returns_orErr _ _).bind fun n _ => returns_ok _

def colonLetters : List Char := ['n', 'a', 'p', 'f', 'g', 's', 'm', 'w', 'e', 'k', 'j']

/-- The slice for the second byte cuts a character: such a letter and then a character of more than one byte, in a word
that is not a label. Of the gates, only words of four bytes or more are sliced. -/
def cutsCharacter (word : String) : Bool :=
  match word.toList with
  | c :: d :: _ =>
    colonLetters.contains c && d.utf8Size ≠ 1 && (c ≠ 'g' || 4 ≤ Text.len word) && !Text.endsWith word ":"
  | _ => false

section

variable {word : String} {c : Char} {chars : List Char} {least : Nat} {token : Lexed Token}

theorem behindColon_returns (whole : word.toList = c :: chars) (one : c.utf8Size = 1) (two : 2 ≤ least)
    (narrow : ∀ d rest, chars = d :: rest → least ≤ len word → d.utf8Size = 1)
    (colon : Colon word → Returns token) : Returns (behindColon least word token) := by
  unfold behindColon
  split_ifs with short
  · exact returns_err _
  have long : least ≤ len word := Nat.le_of_not_lt short
  cases chars with
  | nil =>
    have length : len word = 1 := by rw [len, whole, byteLen_cons, one]; rfl
    omega
  | cons d rest =>
    have cut : slice word 1 2 = some (String.singleton d) := by
      rw [slice_second whole one, if_pos (narrow d rest rfl long)]
    rw [cut]
    refine (returns_ok _).bind ?_
    rintro second same
    obtain rfl := Except.ok.inj same
    split_ifs with other
    · exact returns_err _
    · refine colon ⟨c, String.ofList rest, one, String.toList_injective ?_⟩
      have marked : d = ':' := by
        have chars := congrArg String.toList (not_not.mp other)
        simpa using chars
      simp [whole, marked]

variable {rest : List Char} {d : Char}

theorem behindColon_panics (whole : word.toList = c :: d :: rest) (one : c.utf8Size = 1)
    (wide : d.utf8Size ≠ 1) (long : least ≤ len word) : behindColon least word token = .error .panic := by
  rw [behindColon, if_neg (Nat.not_lt.mpr long), slice_second whole one, if_neg wide]
  rfl

theorem narrow_second (whole : word.toList = c :: d :: rest) (one : c.utf8Size = 1)
    (letter : c ∈ colonLetters) (fine : cutsCharacter word = false)
    (unlabelled : ¬ (endsWith word ":" = true ∧ 2 < len word)) (long : c = 'g' → 4 ≤ len word) :
    d.utf8Size = 1 := by
  by_contra wide
  have size : 2 < len word := by
    have length : len word = 1 + (d.utf8Size + byteLen rest) := by
      rw [len, whole, byteLen_cons, byteLen_cons, one]
    have positive := d.utf8Size_pos
    omega
  have other : endsWith word ":" = false := by
    rw [← Bool.not_eq_true]
    exact fun label => unlabelled ⟨label, size⟩
  have cut : cutsCharacter word = true := by
    simp only [cutsCharacter, whole, other, Bool.not_false, Bool.and_true, Bool.and_eq_true, Bool.or_eq_true,
      decide_eq_true_eq, contains_iff_mem]
    exact ⟨⟨letter, wide⟩, or_iff_not_imp_left.mpr fun gate => long (not_not.mp gate)⟩
  rw [fine] at cut
  cases cut

theorem byFirst_returns (whole : word.toList = c :: chars) (fine : cutsCharacter word = false)
    (unlabelled : ¬ (endsWith word ":" = true ∧ 2 < len word)) : Returns (byFirst word c) := by
  have narrow : ∀ least, c.utf8Size = 1 → c ∈ colonLetters → (c = 'g' → 4 ≤ least) →
      ∀ d rest, chars = d :: rest → least ≤ len word → d.utf8Size = 1 := by
    intro least one letter gate d rest same long
    subst same
    exact narrow_second whole one letter fine unlabelled fun same => Nat.le_trans (gate same) long
  have behind : ∀ least token, c.utf8Size = 1 → c ∈ colonLetters → (c = 'g' → 4 ≤ least) → 2 ≤ least →
      (Colon word → Returns token) → Returns (behindColon least word token) := by
    intro least token one letter gate two colon
    exact behindColon_returns whole one two (narrow least one letter gate) colon
  have starts : word = String.singleton c ++ String.ofList chars := by
    apply String.toList_injective
    simp [whole]
  unfold byFirst
  split
  case h_1 | h_2 | h_5 | h_7 | h_8 | h_13 | h_17 =>
    exact behind 3 _ rfl (by decide) (by decide) (by decide) fun colon => colon.operand _ _
  case h_3 | h_10 =>
    exact behind 3 _ rfl (by decide) (by decide) (by decide) fun colon => colon.targets _ _
  case h_6 => exact behind 4 _ rfl (by decide) (by decide) (by decide) fun colon => colon.gate
  case h_9 =>
    refine behind 3 _ rfl (by decide) (by decide) (by decide) fun _ => ?_
    split_ifs
    · exact returns_err _
    · exact returns_ok _
  case h_4 | h_11 | h_16 =>
    split_ifs
    · exact returns_ok _
    · exact returns_err _
  case h_12 | h_15 =>
    split_ifs
    · exact returns_err _
    · exact number_returns rfl starts _ _
  case h_14 => exact parseRetry_returns starts
  case h_18 => exact returns_err _

theorem classify_returns (fine : cutsCharacter word = false) : Returns (classify word) := by
  unfold classify
  split
  · exact returns_err _
  rename_i first rest whole
  by_cases chunk : startsWith word "chunk:" = true
  · rw [if_pos chunk]
    exact parseChunk_returns chunk
  rw [if_neg chunk]
  split
  · unfold keyword
    split_ifs
    · exact returns_err _
    · exact returns_ok _
  · exact (returns_orErr _ _).bind fun ms _ => returns_ok _
  · unfold keyword
    split_ifs
    · exact returns_err _
    · exact returns_ok _
  · split_ifs with label
    · obtain ⟨front, rfl⟩ := endsWith_iff.mp label.1
      have length : len (front ++ ":") - 1 = len front := by
        rw [len_append]
        exact Nat.add_sub_cancel _ 1
      rw [length, sliceTo_append]
      exact returns_ok _
    · exact byFirst_returns whole fine label

theorem not_startsWith (whole : word.toList = c :: d :: rest) (wide : d.utf8Size ≠ 1)
    (pre : String) {p q : Char} {more : List Char} (spelled : pre.toList = p :: q :: more) (narrow : q.utf8Size = 1) :
    startsWith word pre = false := by
  rw [← Bool.not_eq_true, startsWith_iff]
  rintro ⟨tail, rfl⟩
  rw [String.toList_append, spelled] at whole
  obtain ⟨-, later⟩ := List.cons.inj whole
  obtain ⟨same, -⟩ := List.cons.inj later
  exact wide (same ▸ narrow)

theorem classify_panics (cut : cutsCharacter word = true) : classify word = .error .panic := by
  unfold cutsCharacter at cut
  split at cut
  · rename_i c d rest whole
    simp only [Bool.and_eq_true, decide_eq_true_eq, contains_iff_mem, Bool.not_eq_true'] at cut
    obtain ⟨⟨⟨letter, wide⟩, long⟩, other⟩ := cut
    have chunk := not_startsWith whole wide "chunk:" rfl rfl
    have dag := not_startsWith whole wide "dag:" rfl rfl
    have delay := not_startsWith whole wide "delay:" rfl rfl
    have schema := not_startsWith whole wide "schema:" rfl rfl
    have size : c.utf8Size = 1 → 3 ≤ len word := by
      intro one
      have length : len word = 1 + (d.utf8Size + byteLen rest) := by
        rw [len, whole, byteLen_cons, byteLen_cons, one]
      have positive := d.utf8Size_pos
      omega
    have arrived : classify word = byFirst word c := by
      unfold classify
      simp [whole, chunk, stripPrefix, dag, delay, schema, other]
    rw [arrived]
    simp only [colonLetters, mem_cons, not_mem_nil, or_false] at letter
    rcases letter with rfl | rfl | rfl | rfl | rfl | rfl | rfl | rfl | rfl | rfl | rfl
    case inr.inr.inr.inr.inl => exact behindColon_panics whole rfl wide (by simpa using long)
    all_goals exact behindColon_panics whole rfl wide (size rfl)
  · cases cut

theorem classify_panics_iff : classify word = .error .panic ↔ cutsCharacter word = true := by
  refine ⟨?_, classify_panics⟩
  intro panics
  by_contra fine
  exact classify_returns (Bool.not_eq_true _ ▸ fine) panics

end

end Lexer

/-- `lex`: the tokens of all words, up to the first error. -/
def lex (input : String) : Lexed (List Token) := (Text.splitWhitespace input).mapM Lexer.classify

/-- `lex` returns tokens or an error exactly if no word that it comes to, behind words it takes, has a character cut by
the slice for its second byte. -/
theorem lex_returns_iff (input : String) : ((∃ tokens, lex input = .ok tokens) ∨ ∃ e, lex input = .error (.err e)) ↔
      ∀ before word after, Text.splitWhitespace input = before ++ word :: after →
        (∀ earlier ∈ before, ∃ token, Lexer.classify earlier = .ok token) → Lexer.cutsCharacter word = false := by
  have panics : lex input = .error .panic ↔ ∃ before word after,
      splitWhitespace input = before ++ word :: after ∧
        (∀ earlier ∈ before, ∃ token, Lexer.classify earlier = .ok token) ∧ Lexer.cutsCharacter word = true := by
    rw [lex, Traverse.mapM_eq_error]
    simp only [Lexer.classify_panics_iff]
  constructor
  · intro returned before word after cut passed
    by_contra panic
    have failed := panics.mpr ⟨before, word, after, cut, passed, Bool.not_eq_false _ ▸ panic⟩
    rcases returned with ⟨tokens, ok⟩ | ⟨e, err⟩
    · rw [failed] at ok
      cases ok
    · rw [failed] at err
      cases err
  · intro fine
    cases result : lex input with
    | ok tokens => exact .inl ⟨tokens, rfl⟩
    | error fault =>
      cases fault with
      | err e => exact .inr ⟨e, rfl⟩
      | panic =>
        obtain ⟨before, word, after, cut, passed, panic⟩ := panics.mp result
        rw [fine before word after cut passed] at panic
        cases panic

/-- Characters of more than one byte do no harm behind the colon, and in labels. -/
theorem lex_wide_operand : (∃ tokens, lex "né: n:é" = .ok tokens) ∨ ∃ e, lex "né: n:é" = .error (.err e) := by
  refine (lex_returns_iff "né: n:é").mpr ?_
  intro before word after cut _
  have fine : ∀ word ∈ splitWhitespace "né: n:é", Lexer.cutsCharacter word = false := by decide
  refine fine word ?_
  rw [cut]
  exact mem_append_right before mem_cons_self

/-- A word of a letter and such a character panics. -/
theorem lex_panics : lex "né" = .error .panic := by
  decide

end FlowRulZ
