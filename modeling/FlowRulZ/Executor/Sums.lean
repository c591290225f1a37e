import FlowRulZ.Executor.DagResults
import FlowRulZ.Executor.ExprShapes

/-! # Sums

A sum of literals, fields and calls should be the texts of its operands, one behind the other.  The parser
looks for quotation marks, numbers and parentheses first, and so sees only some sums.
-/

namespace FlowRulZ.Expr

open List Text

variable {host : Host} {platform : Platform} {body : Json}

inductive Operand where
  | literal (mark : Char) (s : String)
  | field (path : String)
  | call (name args : String)

namespace Operand

def text : Operand → String
  | .literal mark s => String.singleton mark ++ s ++ String.singleton mark
  | .field path => path
  | .call name args => name ++ "(" ++ args ++ ")"

def Balanced (args : String) : Prop :=
  args.toList.foldl deeper 0 = 0 ∧ ∀ front ∈ args.toList.inits, 0 ≤ front.foldl deeper 0

/-- A literal without its own quotation mark inside, a field path, or a call with balanced parentheses. -/
def Written (platform : Platform) : Operand → Prop
  | .literal mark s => (mark = '"' ∨ mark = '\'') ∧ mark ∉ s.toList
  | .field path => isValidField platform path = true
  | .call name args => isValidField platform name = true ∧ Balanced args

def Edge (platform : Platform) (operand : Operand) (c : Char) : Prop :=
  (c = '"' ∨ c = '\'') ∧ (∃ s, operand = .literal c s) ∨ isFieldChar platform c = true

def IsCall : Operand → Prop
  | .call _ _ => True
  | _ => False

variable {operand : Operand}

theorem edges (written : operand.Written platform) (flat : ¬ operand.IsCall) :
    (∃ c rest, operand.text.toList = c :: rest ∧ Edge platform operand c) ∧
      ∃ front d, operand.text.toList = front ++ [d] ∧ Edge platform operand d := by
  cases operand with
  | call name args => exact absurd trivial flat
  | literal mark s =>
    refine ⟨⟨mark, s.toList ++ [mark], by simp [text], ?_⟩, mark :: s.toList, mark, by simp [text], ?_⟩
    · exact .inl ⟨written.1, s, rfl⟩
    · exact .inl ⟨written.1, s, rfl⟩
  | field path =>
    obtain ⟨filled, plain⟩ := isValidField_iff.mp written
    have some : path.toList ≠ [] := by simpa using filled
    constructor
    · obtain ⟨c, rest, whole⟩ := exists_cons_of_ne_nil some
      exact ⟨c, rest, whole, .inr (plain c (by simp [whole]))⟩
    · refine ⟨path.toList.dropLast, path.toList.getLast some, (dropLast_append_getLast some).symm, ?_⟩
      exact .inr (plain _ (getLast_mem some))

variable {c : Char}

theorem Edge.dark (edge : Edge platform operand c) : isWhitespace c = false := by
  rcases edge with ⟨rfl | rfl, -⟩ | plain
  · decide
  · decide
  · exact isFieldChar_dark plain

theorem Edge.ne_plus (edge : Edge platform operand c) : '+' ≠ c := by
  rcases edge with ⟨rfl | rfl, -⟩ | plain
  · decide
  · decide
  · exact (isFieldChar_ne plain (by decide) (by decide)).symm

theorem Edge.literal (edge : Edge platform operand c) (mark : c = '"' ∨ c = '\'') : ∃ s, operand = .literal c s := by
  rcases edge with ⟨-, literal⟩ | plain
  · exact literal
  · rcases mark with rfl | rfl
    · exact absurd rfl (isFieldChar_ne plain (by decide) (by decide))
    · exact absurd rfl (isFieldChar_ne plain (by decide) (by decide))

def Plain : Operand → Prop
  | .literal _ s => '+' ∉ s.toList ∧ '(' ∉ s.toList ∧ ')' ∉ s.toList
  | .field _ => True
  | .call _ _ => False

theorem Plain.not_isCall (plain : operand.Plain) : ¬ operand.IsCall := by
  cases operand with
  | call => exact plain.elim
  | literal | field => exact id

theorem Plain.not_mem (plain : operand.Plain) (written : operand.Written platform) :
    '+' ∉ operand.text.toList ∧ '(' ∉ operand.text.toList ∧ ')' ∉ operand.text.toList := by
  cases operand with
  | call name args => exact plain.elim
  | literal mark s =>
    obtain ⟨rfl | rfl, -⟩ := written
    · simpa [text, Plain] using plain
    · simpa [text, Plain] using plain
  | field path =>
    have chars := (isValidField_iff.mp written).2
    refine ⟨?_, ?_, ?_⟩
    · exact fun inside => isFieldChar_ne (chars _ inside) (by decide) (by decide) rfl
    · exact fun inside => isFieldChar_ne (chars _ inside) (by decide) (by decide) rfl
    · exact fun inside => isFieldChar_ne (chars _ inside) (by decide) (by decide) rfl

theorem trim_text (written : operand.Written platform) (flat : ¬ operand.IsCall) :
    trim operand.text = operand.text := by
  obtain ⟨⟨c, rest, begins, edge⟩, front, d, ends, edge'⟩ := edges written flat
  exact trim_of_ends begins ends edge.dark edge'.dark

theorem not_loneQuote (written : operand.Written platform) (flat : ¬ operand.IsCall) : ¬ LoneQuote operand.text := by
  unfold LoneQuote
  rw [trim_text written flat]
  cases operand with
  | call => exact absurd trivial flat
  | literal mark s =>
    have two : (literal mark s).text.length ≠ 1 := by simp [text]
    rintro (lone | lone)
    · exact two (congrArg String.length lone)
    · exact two (congrArg String.length lone)
  | field path =>
    have chars := (isValidField_iff.mp written).2
    rintro (rfl | rfl)
    · exact isFieldChar_ne (chars '"' (by decide)) (by decide) (by decide) rfl
    · exact isFieldChar_ne (chars '\'' (by decide)) (by decide) (by decide) rfl

/-- A sum that the parser sees as one. -/
structure Splits (platform : Platform) (operands : List Operand) : Prop where
  plain : ∀ operand ∈ operands, operand.Plain
  apart : ∀ mark s t, operands.head? = some (.literal mark s) → operands.getLast? ≠ some (.literal mark t)
  noNumber : Float64.parseBits (Text.join "+" (operands.map text)) = none

section Joined

variable {operands : List Operand} (written : ∀ operand ∈ operands, operand.Written platform)
  (two : 2 ≤ operands.length) (splits : Splits platform operands)

theorem join_not_mem {c : Char} (apart : c ≠ '+') (free : ∀ operand ∈ operands, c ∉ operand.text.toList) :
    c ∉ (join "+" (operands.map text)).toList := by
  intro inside
  rcases mem_join inside with between | ⟨piece, member, there⟩
  · exact apart (mem_singleton.mp between)
  · obtain ⟨operand, listed, rfl⟩ := mem_map.mp member
    exact free operand listed there

include written splits

theorem join_edges (some : operands ≠ []) : ∃ first last c rest front d,
    operands.head? = .some first ∧ operands.getLast? = .some last ∧
      (join "+" (operands.map text)).toList = c :: rest ∧ Edge platform first c ∧
      (join "+" (operands.map text)).toList = front ++ [d] ∧ Edge platform last d := by
  obtain ⟨first, more, rfl⟩ := exists_cons_of_ne_nil some
  obtain ⟨others, last, whole⟩ := (eq_nil_or_concat' (first :: more)).resolve_left some
  have member : last ∈ first :: more := by simp [whole]
  obtain ⟨c, rest, begins, edge⟩ := (edges (written first mem_cons_self)
    (splits.plain first mem_cons_self).not_isCall).1
  obtain ⟨front, d, ends, edge'⟩ := (edges (written last member) (splits.plain last member).not_isCall).2
  obtain ⟨tail, joined⟩ := join_cons_append "+" first.text (more.map text)
  obtain ⟨head, joined'⟩ := join_concat_append "+" last.text (others.map text)
  refine ⟨first, last, c, rest ++ tail.toList, head.toList ++ front, d, rfl, ?_, ?_, edge, ?_, edge'⟩
  · rw [whole, getLast?_concat]
  · rw [map_cons, joined, String.toList_append, begins, cons_append]
  · rw [whole, map_append, map_singleton, joined', String.toList_append, ends, append_assoc]

theorem join_not_quoted (some : operands ≠ []) {mark : Char} (quote : mark = '"' ∨ mark = '\'') :
    (startsWith (join "+" (operands.map text)) (String.singleton mark) &&
      endsWith (join "+" (operands.map text)) (String.singleton mark)) = false := by
  obtain ⟨first, last, c, rest, front, d, isFirst, isLast, begins, edge, ends, edge'⟩ := join_edges written splits some
  rw [Bool.and_eq_false_iff, ← Bool.not_eq_true, ← Bool.not_eq_true, ← not_and_or]
  rintro ⟨opened, closed⟩
  obtain rfl : c = mark := by
    obtain ⟨tail, whole⟩ := startsWith_iff.mp opened
    have same : c = mark ∧ rest = tail.toList := by simpa [whole] using begins.symm
    exact same.1
  obtain rfl : d = c := by
    obtain ⟨head, whole⟩ := endsWith_iff.mp closed
    rw [whole, String.toList_append, String.toList_singleton] at ends
    simpa using (append_inj' ends rfl).2.symm
  obtain ⟨s, rfl⟩ := edge.literal quote
  obtain ⟨t, rfl⟩ := edge'.literal quote
  exact splits.apart _ s t isFirst isLast

include two

theorem shape_join : shape platform (join "+" (operands.map text)) = .ok (.sum (operands.map text)) := by
  have some : operands ≠ [] := by
    rintro rfl
    cases two
  obtain ⟨first, last, c, rest, front, d, -, -, begins, edge, ends, edge'⟩ := join_edges written splits some
  have plain : ∀ operand ∈ operands, '+' ∉ operand.text.toList ∧ '(' ∉ operand.text.toList ∧ ')' ∉ operand.text.toList :=
    fun operand member => (splits.plain operand member).not_mem (written operand member)
  have opened : '(' ∉ (join "+" (operands.map text)).toList :=
    join_not_mem (by decide) fun operand member => (plain operand member).2.1
  have closed : ')' ∉ (join "+" (operands.map text)).toList :=
    join_not_mem (by decide) fun operand member => (plain operand member).2.2
  have plus : '+' ∈ (join "+" (operands.map text)).toList := by
    match operands, two with
    | a :: b :: more, _ =>
      rw [map_cons, map_cons, join_cons_cons]
      simp
  have apart : startsWith (join "+" (operands.map text)) "+" = false :=
    startsWith_cons "+" begins rfl edge.ne_plus
  have cut : split (join "+" (operands.map text)) '+' = operands.map text := by
    refine split_join ?_ (by simpa using some)
    intro piece member
    obtain ⟨operand, listed, rfl⟩ := mem_map.mp member
    exact (plain operand listed).1
  have trimmed : (operands.map text).map trim = operands.map text := by
    rw [map_map]
    exact map_congr_left fun operand member =>
      trim_text (written operand member) (splits.plain operand member).not_isCall
  have double := join_not_quoted written splits some (.inl rfl)
  have single := join_not_quoted written splits some (.inr rfl)
  unfold shape
  rw [trim_of_ends begins ends edge.dark edge'.dark]
  have mark : "\"" = String.singleton '"' := rfl
  have mark' : "'" = String.singleton '\'' := rfl
  dsimp only
  rw [mark, mark', double, single, splits.noNumber, opening_of_not_mem opened, sumParts_eq plus apart opened closed, cut,
    trimmed]
  rfl

theorem parse_join : ∃ exprs, (operands.map text).mapM (parse platform) = .ok exprs ∧
    parse platform (join "+" (operands.map text)) = .ok (.concat exprs) := by
  cases parsed : (operands.map text).mapM (parse platform) with
  | error e =>
    obtain ⟨before, piece, after, whole, -, failed⟩ := (Traverse.mapM_eq_error _).mp parsed
    have member : piece ∈ operands.map text := by simp [whole]
    obtain ⟨operand, listed, rfl⟩ := mem_map.mp member
    have plain := splits.plain operand listed
    have free := plain.not_mem (written operand listed)
    have passed : ∃ expr, parse platform operand.text = .ok expr :=
      parse_of_not_mem free.1 free.2.1 (not_loneQuote (written operand listed) plain.not_isCall)
    obtain ⟨expr, ok⟩ := passed
    rw [failed] at ok
    cases ok
  | ok exprs =>
    refine ⟨exprs, rfl, ?_⟩
    rw [parse_eq, shape_join written two splits]
    change ((operands.map text).mapM (parse platform)).map _ = _
    rw [parsed]
    rfl

end Joined

end Operand

def evaluate (host : Host) (platform : Platform) (body : Json) (text : String) (moment : Nat) : Evaluated Json :=
  match parse platform text with
  | .error e => (.error e, moment)
  | .ok expr => expr.eval host platform body moment

def inTurn {α β : Type} (step : α → Nat → Evaluated β) : List α → Nat → Evaluated (List β)
  | [], moment => (.ok [], moment)
  | item :: items, moment =>
    match step item moment with
    | (.error e, moment) => (.error e, moment)
    | (.ok value, moment) =>
      let rest := inTurn step items moment
      (rest.1.map (value :: ·), rest.2)

def evaluateEach (host : Host) (platform : Platform) (body : Json) : List String → Nat → Evaluated (List Json) :=
  inTurn (evaluate host platform body)

def concatenated (host : Host) : Evaluated (List Json) → Evaluated Json
  | (.error e, moment) => (.error e, moment)
  | (.ok values, moment) => (.ok (.str (String.join (values.map (valueToString host)))), moment)

theorem evaluate_parsed {expr : Expr} {text : String} (parsed : parse platform text = .ok expr) (moment : Nat) :
    evaluate host platform body text moment = expr.eval host platform body moment := by
  delta evaluate
  rw [parsed]

theorem evaluateEach_parsed {exprs : List Expr} {texts : List String}
    (parsed : List.Forall₂ (fun expr text => parse platform text = .ok expr) exprs texts) (moment : Nat) :
    evaluateEach host platform body texts moment = evalAll host platform body exprs moment := by
  unfold evaluateEach
  induction parsed generalizing moment with
  | nil => rfl
  | @cons expr text exprs texts here _ ih =>
    rw [inTurn, evalAll, evaluate_parsed here]
    rcases eval host platform body expr moment with ⟨_ | value, later⟩
    · rfl
    · dsimp only
      rw [ih]
      rcases evalAll host platform body exprs later with ⟨_ | values, last⟩ <;> rfl

theorem eval_concat (exprs : List Expr) (moment : Nat) : eval host platform body (.concat exprs) moment =
    concatenated host (evalAll host platform body exprs moment) := by
  rw [eval]
  rcases evalAll host platform body exprs moment with ⟨_ | values, later⟩ <;> rfl

/-- Literals and fields are concatenated, unless the text as a whole is a literal or a number, or a literal has a plus
or a parenthesis. -/
theorem evaluate_sum (host : Host) (platform : Platform) (body : Json) (moment : Nat) (operands : List Operand)
    (written : ∀ operand ∈ operands, operand.Written platform) (two : 2 ≤ operands.length)
    (splits : Operand.Splits platform operands) :
    evaluate host platform body (Text.join "+" (operands.map Operand.text)) moment =
      concatenated host (evaluateEach host platform body (operands.map Operand.text) moment) := by
  obtain ⟨exprs, parsed, sum⟩ := Operand.parse_join written two splits
  rw [evaluate_parsed sum, evaluateEach_parsed (Traverse.mapM_eq_ok _ parsed)]
  exact eval_concat exprs moment

def shown (host : Host) (result : Evaluated Json) : Option String := result.1.toOption.map (valueToString host)

/-- A literal before a field. -/
theorem evaluate_sum_greeting : let operands := [Operand.literal '"' "Hi ", .field "name"]
    let body := Json.obj [("name", .str "Jo")]
    Operand.Splits Platform.ascii operands ∧
      shown Host.terse (evaluate Host.terse Platform.ascii body (Text.join "+" (operands.map Operand.text)) 0) =
        some "Hi Jo" := by
  intro operands body
  have written : ∀ operand ∈ operands, operand.Written Platform.ascii := by
    have name : isValidField Platform.ascii "name" = true := by decide
    simp only [operands, mem_cons, not_mem_nil, or_false, forall_eq_or_imp, forall_eq]
    exact ⟨⟨.inl rfl, by decide⟩, name⟩
  have splits : Operand.Splits Platform.ascii operands := {
    plain := by
      have free : '+' ∉ "Hi ".toList ∧ '(' ∉ "Hi ".toList ∧ ')' ∉ "Hi ".toList := by decide
      simp only [operands, mem_cons, not_mem_nil, or_false, forall_eq_or_imp, forall_eq]
      exact ⟨free, trivial⟩
    apart := by
      intro mark s t _ last
      cases last
    noNumber := by decide +kernel }
  refine ⟨splits, ?_⟩
  rw [evaluate_sum Host.terse Platform.ascii body 0 operands written (by decide) splits]
  decide +kernel

/-- Two literals are taken for one, and a call swallows what is behind it. -/
theorem evaluate_sum_swallowed : let quotes := [Operand.literal '"' "a", .literal '"' "b"]
    let calls := [Operand.call "upper" "a", .call "lower" "b"]
    let body := Json.obj [("a", .str "x"), ("b", .str "Y")]
    let value := fun operands : List Operand =>
      shown Host.terse (evaluate Host.terse Platform.ascii body (Text.join "+" (operands.map Operand.text)) 0)
    let expected := fun operands : List Operand => shown Host.terse
      (concatenated Host.terse (evaluateEach Host.terse Platform.ascii body (operands.map Operand.text) 0))
    (∀ operand ∈ quotes ++ calls, operand.Written Platform.ascii) ∧
      value quotes = some "a\"+\"b" ∧ expected quotes = some "ab" ∧
      value calls = some "A)+LOWER(B" ∧ expected calls = some "Xy" := by
  intro quotes calls body value expected
  have written : ∀ operand ∈ quotes ++ calls, operand.Written Platform.ascii := by
    have upper : isValidField Platform.ascii "upper" = true ∧ Operand.Balanced "a" := by
      unfold Operand.Balanced
      decide
    have lower : isValidField Platform.ascii "lower" = true ∧ Operand.Balanced "b" := by
      unfold Operand.Balanced
      decide
    simp only [quotes, calls, cons_append, nil_append, mem_cons, not_mem_nil, or_false, forall_eq_or_imp, forall_eq]
    exact ⟨⟨.inl rfl, by decide⟩, ⟨.inl rfl, by decide⟩, upper, lower⟩
  refine ⟨written, ?_⟩
  decide +kernel

end FlowRulZ.Expr
