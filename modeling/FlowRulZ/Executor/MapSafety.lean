import FlowRulZ.Executor.Base64
import FlowRulZ.Executor.DagResults
import FlowRulZ.Executor.ExprShapes

/-! # Panics of map expressions

`eval_map_expression` panics in two places: where the parser meets a lone quotation mark, and in a
`substring` whose bounds are out of order or inside a character.
-/

open List

namespace FlowRulZ

variable {host : Host} {platform : Platform}

theorem inBounds_eq_panic {α : Type} {part : Option α} : inBounds part = .error .panic ↔ part = none := by
  cases part <;> simp [inBounds]

theorem need_ne_panic {α : Type} (message : String) (value : Option α) : need message value ≠ .error .panic := by
  cases value <;> simp [need]

theorem base64Encode_ne_none (s : String) : base64Encode s ≠ none := by
  obtain ⟨vs, pad, coded⟩ := Base64.exists_coded (Utf8.encode s)
  rw [base64Encode, coded.spec.2.1]
  simp

theorem mapError_ne_panic {ε α : Type} {f : ε → String} (x : Except ε α) :
    x.mapError (fun e => Fault.err (f e)) ≠ .error .panic := by
  cases x <;> simp [Except.mapError]

theorem mapError_err_ne_panic {α : Type} (x : Except String α) : x.mapError Fault.err ≠ .error .panic :=
  mapError_ne_panic (f := id) x

namespace Builtin

variable {moment : Nat} {args : List Json}

theorem unary_ne_panic (name : String) (other : Json) (f : UInt64 → UInt64) : unary name other f args ≠ .error .panic := by
  unfold unary
  cases argAsF64 args 0 <;> simp [need, bind, Except.bind, pure, Except.pure]

theorem binary_ne_panic (name : String) (f : UInt64 → UInt64 → UInt64) : binary name f args ≠ .error .panic := by
  unfold binary
  cases argAsF64 args 0 <;> cases argAsF64 args 1 <;> simp [need, bind, Except.bind, pure, Except.pure]

theorem call_eq_panic (f : Builtin) :
    f.call host platform moment args = .error .panic ↔ f = substring ∧ slice host args = none := by
  cases f with
  | substring => simp [call, Traverse.map_eq_error, inBounds_eq_panic]
  | base64 => simp [call, Traverse.map_eq_error, inBounds_eq_panic, base64Encode_ne_none]
  | abs | round | ceil | floor => simp [call, unary_ne_panic]
  | min | max => simp [call, binary_ne_panic]
  | json => simp [call, mapError_ne_panic]
  | parseInt | parseFloat =>
    simp only [call, reduceCtorEq, false_and, iff_false]
    split <;> simp
  | base64Decode =>
    simp only [call, reduceCtorEq, false_and, iff_false]
    split
    · simp
    · split <;> simp
  | parseBool | split =>
    simp only [call, reduceCtorEq, false_and, iff_false]
    split_ifs <;> simp
  | contains =>
    simp only [call, Traverse.bind_eq_error, need_ne_panic, false_or, reduceCtorEq, false_and, iff_false]
    rintro ⟨list, -, value, -, failed⟩
    cases list <;> cases failed
  | keys =>
    simp only [call, Traverse.bind_eq_error, need_ne_panic, false_or, reduceCtorEq, false_and, iff_false]
    rintro ⟨object, -, failed⟩
    cases object <;> cases failed
  | merge | typeof => simp [call, Traverse.bind_eq_error, need_ne_panic, pure, Except.pure]
  | _ => simp [call]

end Builtin

theorem callBuiltin_eq_panic {moment : Nat} {name : String} {args : List Json} :
    callBuiltin host platform moment name args = .error .panic ↔
      name = "substring" ∧ Builtin.slice host args = none := by
  have named : Builtin.names.lookup name = some .substring ↔ name = "substring" := by
    constructor
    · intro found
      obtain ⟨before, after, listed, -⟩ := lookup_eq_some_iff.mp found
      have member : (name, Builtin.substring) ∈ Builtin.names := by
        rw [listed]
        exact mem_append_right before mem_cons_self
      simpa [Builtin.names] using member
    · rintro rfl
      decide
  rw [callBuiltin, ← named]
  cases Builtin.names.lookup name with
  | none => simp
  | some f => simp [Builtin.call_eq_panic]

namespace Expr

section Evaluation

variable {body : Json}

/-- The expressions that are evaluated before the expression itself. -/
def parts : Expr → List Expr
  | .fnCall _ args => args
  | .concat parts => parts
  | _ => []

/-- The calls that `eval_expr` makes, with the values of the arguments. -/
inductive Makes (host : Host) (platform : Platform) (body : Json) : Expr → Nat → String → List Json → Prop where
  | call {name : String} {args : List Expr} {values : List Json} {moment later : Nat} :
      evalAll host platform body args moment = (.ok values, later) →
      Makes host platform body (.fnCall name args) moment name values
  | inside {expr part : Expr} {before after : List Expr} {name : String} {values args : List Json} {moment later : Nat} :
      expr.parts = before ++ part :: after → evalAll host platform body before moment = (.ok values, later) →
      Makes host platform body part later name args → Makes host platform body expr moment name args

section Lists

variable {expr : Expr} {exprs : List Expr} {e : Fault String} {value : Json} {moment later last : Nat}

theorem evalAll_cons_eq_ok {values : List Json} :
    evalAll host platform body (expr :: exprs) moment = (.ok values, last) ↔
      ∃ value later more, eval host platform body expr moment = (.ok value, later) ∧
        evalAll host platform body exprs later = (.ok more, last) ∧ values = value :: more := by
  rcases first : eval host platform body expr moment with ⟨_ | value, later⟩
  · simp [evalAll, first]
  · rcases rest : evalAll host platform body exprs later with ⟨_ | more, last'⟩
    · simp [evalAll, first, rest]
    · simp [evalAll, first, rest, and_comm, eq_comm]

theorem evalAll_eq_error : (evalAll host platform body exprs moment).1 = .error e ↔
    ∃ before part after values later, exprs = before ++ part :: after ∧
      evalAll host platform body before moment = (.ok values, later) ∧
      (eval host platform body part later).1 = .error e := by
  induction exprs generalizing moment with
  | nil => simp [evalAll]
  | cons expr exprs ih =>
    simp only [exists_and_left, Splits.exists_cons, evalAll_cons_eq_ok]
    rcases first : eval host platform body expr moment with ⟨e' | value, later⟩
    · simp [evalAll, first]
    · simp only [evalAll]
      grind

end Lists

variable {moment : Nat} {expr : Expr}

theorem eval_of_parts {e : Fault String} (failed : (evalAll host platform body expr.parts moment).1 = .error e) :
    (eval host platform body expr moment).1 = .error e := by
  cases expr with
  | fnCall _ args | concat args =>
    rcases all : evalAll host platform body args moment with ⟨_ | values, later⟩
    · simpa [eval, all, parts] using failed
    · simp [parts, all] at failed
  | field | literal | number | raw => simp [parts, evalAll] at failed

theorem eval_eq_panic_cases (failed : (eval host platform body expr moment).1 = .error .panic) :
    (evalAll host platform body expr.parts moment).1 = .error .panic ∨
      ∃ name args values later, expr = .fnCall name args ∧
        evalAll host platform body args moment = (.ok values, later) ∧
        callBuiltin host platform later name values = .error .panic := by
  cases expr with
  | fnCall name args =>
    rcases all : evalAll host platform body args moment with ⟨_ | values, later⟩
    · left
      simpa [eval, all, parts] using failed
    · right
      exact ⟨name, args, values, later, rfl, all, by simpa [eval, all] using failed⟩
  | concat exprs =>
    left
    rcases all : evalAll host platform body exprs moment with ⟨_ | values, later⟩
    · simpa [eval, all, parts] using failed
    · simp [eval, all] at failed
  | field path => exact absurd failed (mapError_err_ne_panic _)
  | literal | number | raw => simp [eval] at failed

theorem sizeOf_lt_of_mem_parts {expr part : Expr} (member : part ∈ expr.parts) : sizeOf part < sizeOf expr := by
  cases expr with
  | fnCall name args =>
    have small := sizeOf_lt_of_mem member
    simp [parts] at small ⊢
    omega
  | concat exprs =>
    have small := sizeOf_lt_of_mem member
    simp [parts] at small ⊢
    omega
  | field | literal | number | raw => cases member

theorem Makes.of_panic (failed : (eval host platform body expr moment).1 = .error .panic) :
    ∃ args, Makes host platform body expr moment "substring" args ∧ Builtin.slice host args = none := by
  -- by the size of the expression: its parts are smaller
  induction size : sizeOf expr using Nat.strong_induction_on generalizing expr moment with
  | _ n ih =>
    subst size
    rcases eval_eq_panic_cases failed with among | ⟨name, args, values, later, rfl, all, panics⟩
    · obtain ⟨before, part, after, values, later, whole, passed, failed⟩ := evalAll_eq_error.mp among
      have member : part ∈ expr.parts := by simp [whole]
      obtain ⟨args, made, out⟩ := ih _ (sizeOf_lt_of_mem_parts member) failed rfl
      exact ⟨args, .inside whole passed made, out⟩
    · obtain ⟨rfl, out⟩ := callBuiltin_eq_panic.mp panics
      exact ⟨values, .call all, out⟩

theorem Makes.panics {name : String} {args : List Json}
    (made : Makes host platform body expr moment name args) (known : name = "substring") (out : Builtin.slice host args = none) :
    (eval host platform body expr moment).1 = .error .panic := by
  induction made with
  | call all => simp [eval, all, callBuiltin_eq_panic, known, out]
  | inside whole passed _ ih => exact eval_of_parts (evalAll_eq_error.mpr ⟨_, _, _, _, _, whole, passed, ih known out⟩)

theorem eval_eq_panic : (eval host platform body expr moment).1 = .error .panic ↔
    ∃ args, Makes host platform body expr moment "substring" args ∧ Builtin.slice host args = none := by
  constructor
  · exact Makes.of_panic
  · rintro ⟨args, made, out⟩
    exact made.panics rfl out

end Evaluation

end Expr

theorem assignment_ne_panic (exprStr : String) : assignment exprStr ≠ .error .panic := by
  unfold assignment
  cases found : Text.find exprStr "=" with
  | none => simp
  | some eqPos =>
    obtain ⟨before, after, front, back⟩ := Text.find_some found
    have one : Text.len "=" = 1 := by decide
    rw [one] at back
    simp only [front, back, inBounds, bind, Except.bind]
    split_ifs <;> simp [pure, Except.pure]

theorem bodyJson_ne_panic (body : Bytes) : bodyJson host body ≠ .error .panic := by
  unfold bodyJson
  cases Utf8.fromUtf8 body with
  | error e => simp
  | ok s => exact mapError_ne_panic _

theorem assign_eq_panic {dest source : String} {body : Json} : assign host platform dest source body = .error .panic ↔
    Expr.parse platform source = .error .panic ∨
      ∃ expr, Expr.parse platform source = .ok expr ∧ (expr.eval host platform body 0).1 = .error .panic := by
  simp only [assign, Traverse.bind_eq_error, mapError_err_ne_panic, pure, Except.pure, reduceCtorEq, and_false, exists_false,
    or_false]

theorem evalMapExpression_eq_panic {exprStr : String} {body : Bytes} :
    evalMapExpression host platform exprStr body = .error .panic ↔
      ∃ dest source value, assignment exprStr = .ok (dest, source) ∧ bodyJson host body = .ok value ∧
        assign host platform dest source value = .error .panic := by
  simp [evalMapExpression, Traverse.bind_eq_error, assignment_ne_panic, bodyJson_ne_panic]

/-- No panic, exactly if the parser meets no lone quotation mark and every `substring` stays in range. -/
theorem evalMapExpression_returns_iff (host : Host) (platform : Platform) (exprStr : String) (body : Bytes) :
    evalMapExpression host platform exprStr body ≠ .error .panic ↔
      ∀ dest source value, assignment exprStr = .ok (dest, source) → bodyJson host body = .ok value →
        (∀ text, Expr.Reaches platform source text → ¬ Expr.LoneQuote text) ∧
        ∀ expr args, Expr.parse platform source = .ok expr → expr.Makes host platform value 0 "substring" args →
          ∃ before part after, argAsStr host args 0 = before ++ part ++ after ∧
            Builtin.start args = Text.len before ∧ Builtin.stop host args = Text.len before + Text.len part := by
  have fits : ∀ args, Builtin.slice host args ≠ none ↔ ∃ before part after,
      argAsStr host args 0 = before ++ part ++ after ∧ Builtin.start args = Text.len before ∧
        Builtin.stop host args = Text.len before + Text.len part := by
    intro args
    simp only [Builtin.slice, ← Option.isSome_iff_ne_none, Option.isSome_iff_exists, Text.slice_eq_some]
    exact exists_comm
  simp only [← fits, Ne, evalMapExpression_eq_panic, assign_eq_panic, Expr.parse_eq_error, Expr.eval_eq_panic, true_and]
  constructor
  · intro returns dest source value target read
    constructor
    · intro text reached lone
      exact returns ⟨dest, source, value, target, read, .inl ⟨text, reached, lone⟩⟩
    · intro expr args parsed made out
      exact returns ⟨dest, source, value, target, read, .inr ⟨expr, parsed, args, made, out⟩⟩
  · rintro safe ⟨dest, source, value, target, read, ⟨text, reached, lone⟩ | ⟨expr, parsed, args, made, out⟩⟩
    · exact (safe dest source value target read).1 text reached lone
    · exact (safe dest source value target read).2 expr args parsed made out

/-- A slice that stays in the text. -/
theorem evalMapExpression_middle : let host := Host.reading [("\x7b\x7d", .obj [])]
    evalMapExpression host Platform.ascii "x=substring('abc',1,2)" (Utf8.encode "\x7b\x7d") =
        .ok (Utf8.encode "\x7b\"x\":\"b\"\x7d") ∧
      ∀ text, Expr.Reaches Platform.ascii "substring('abc',1,2)" text → ¬ Expr.LoneQuote text := by
  intro host
  have evaluated : evalMapExpression host Platform.ascii "x=substring('abc',1,2)" (Utf8.encode "\x7b\x7d") =
      .ok (Utf8.encode "\x7b\"x\":\"b\"\x7d") := by decide +kernel
  have target : assignment "x=substring('abc',1,2)" = .ok ("x", "substring('abc',1,2)") := by decide +kernel
  have read : bodyJson host (Utf8.encode "\x7b\x7d") = .ok (.obj []) := by rfl
  have returns : evalMapExpression host Platform.ascii "x=substring('abc',1,2)" (Utf8.encode "\x7b\x7d") ≠ .error .panic := by
    rw [evaluated]
    simp
  exact ⟨evaluated, ((evalMapExpression_returns_iff _ _ _ _).mp returns _ _ _ target read).1⟩

/-- A quotation mark as the source, a slice that ends before it starts, and one that ends inside a character. -/
theorem evalMapExpression_panics : let host := Host.reading [("\x7b\x7d", .obj [])]
    evalMapExpression host Platform.ascii "x=\"" (Utf8.encode "\x7b\x7d") = .error .panic ∧
      evalMapExpression host Platform.ascii "x=substring('abc',2,1)" (Utf8.encode "\x7b\x7d") = .error .panic ∧
      evalMapExpression host Platform.ascii "x=substring('é',0,1)" (Utf8.encode "\x7b\x7d") = .error .panic := by
  decide +kernel

end FlowRulZ
