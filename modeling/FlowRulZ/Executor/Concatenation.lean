import FlowRulZ.Dsl.Schema
import FlowRulZ.Executor.DagResults
import FlowRulZ.Executor.ExprShapes

/-! # Concatenation of required strings

The compiler checks `concat(.a,.b)` against the schema by the names behind the points.  The evaluator takes
a point for the separator of a path, and looks for the names below the empty key.
-/

namespace FlowRulZ

open List Text

/-- A name that the parser takes for a field if a point stands before it. -/
structure IsName (platform : Platform) (name : String) : Prop where
  plain : ∀ c ∈ name.toList, Expr.isFieldChar platform c = true
  noNumber : Float64.parseBits ("." ++ name) = none

structure IsTarget (platform : Platform) (dest : String) : Prop where
  some : dest ≠ ""
  plain : ∀ c ∈ dest.toList, Expr.isFieldChar platform c = true
  single : '.' ∉ dest.toList

def dotted (names : List String) : List String := names.map ("." ++ ·)

def concatCall (names : List String) : String := "concat" ++ "(" ++ Text.join "," (dotted names) ++ ")"

def concatExpr (dest : String) (names : List String) : String := dest ++ "=" ++ concatCall names

variable {host : Host} {platform : Platform} {names : List String} {dest : String}

theorem concatCall_begins (names : List String) : (concatCall names).toList =
    'c' :: ("oncat(".toList ++ (join "," (dotted names)).toList ++ [')']) := by
  simp [concatCall]

theorem concatCall_ends (names : List String) : (concatCall names).toList =
    ("concat(".toList ++ (join "," (dotted names)).toList) ++ [')'] := by
  simp [concatCall]

theorem trim_concatCall (names : List String) : trim (concatCall names) = concatCall names :=
  trim_of_ends (concatCall_begins names) (concatCall_ends names) (by decide) (by decide)

section Named

variable (named : ∀ name ∈ names, IsName platform name)

include named

theorem dotted_chars : ∀ path ∈ dotted names, ∀ c ∈ path.toList, Expr.isFieldChar platform c = true := by
  intro path member c inside
  obtain ⟨name, listed, rfl⟩ := mem_map.mp member
  rw [String.toList_append, mem_append] at inside
  rcases inside with point | later
  · obtain rfl : c = '.' := by simpa using point
    simp [Expr.isFieldChar]
  · exact (named name listed).plain c later

theorem mem_join_dotted {c : Char} (inside : c ∈ (join "," (dotted names)).toList) :
    c = ',' ∨ Expr.isFieldChar platform c = true := by
  rcases mem_join inside with comma | ⟨path, member, there⟩
  · exact .inl (mem_singleton.mp comma)
  · exact .inr (dotted_chars named path member c there)

theorem dotted_valid : ∀ path ∈ dotted names,
    Expr.isValidField platform path = true ∧ Float64.parseBits path = none := by
  intro path member
  have chars := dotted_chars named path member
  obtain ⟨name, listed, rfl⟩ := mem_map.mp member
  exact ⟨Expr.isValidField_iff.mpr ⟨by simp, chars⟩, (named name listed).noNumber⟩

theorem dotted_inert : ∀ path ∈ dotted names, path ≠ "" ∧ trim path = path ∧ ∀ c ∈ path.toList, Expr.Inert c := by
  intro path member
  have chars := dotted_chars named path member
  refine ⟨(Expr.isValidField_iff.mp (dotted_valid named path member).1).1, Expr.trim_of_fieldChars chars, ?_⟩
  intro c inside
  have plain := chars c inside
  refine ⟨?_, ?_, ?_, ?_, ?_⟩
  all_goals exact Expr.isFieldChar_ne plain (by decide) (by decide)

theorem concatCall_not_mem {c : Char} (other : c ∉ "concat(,)".toList) (ascii : c.toNat < 128)
    (sign : (c.isAlphanum || c = '_' || c = '.') = false) : c ∉ (concatCall names).toList := by
  rw [concatCall_ends, mem_append, mem_append]
  rintro ((call | among) | closing)
  · exact other (mem_of_mem_take (i := 7) call)
  · rcases mem_join_dotted named among with rfl | plain
    · exact other (by decide)
    · exact Expr.isFieldChar_ne plain ascii sign rfl
  · exact other (by rw [mem_singleton.mp closing]; decide)

end Named

namespace Expr

section

variable (named : ∀ name ∈ names, IsName platform name)
include named

theorem argTexts_dotted :
    (if (trim (join "," (dotted names))).isEmpty then .ok [] else argTexts (join "," (dotted names))) =
      (.ok (dotted names) : Except (Fault String) (List String)) := by
  cases names with
  | nil => rfl
  | cons name rest =>
    have dark : ∀ c ∈ (join "," (dotted (name :: rest))).toList, isWhitespace c = false := by
      intro c inside
      rcases mem_join_dotted named inside with rfl | plain
      · decide
      · exact isFieldChar_dark plain
    obtain ⟨tail, joined⟩ := join_cons_append "," ("." ++ name) (dotted rest)
    have filled : (join "," (dotted (name :: rest))).isEmpty = false := by
      rw [dotted, map_cons, ← dotted, joined]
      simp
    rw [trim_eq_self dark, filled]
    have closed : ∀ path ∈ dotted (name :: rest), (trim path).isEmpty = false ∧ Closed path.toList 0 none := by
      intro path member
      obtain ⟨filled, trimmed, inert⟩ := dotted_inert named path member
      rw [trimmed]
      exact ⟨by simpa using filled, closed_of_inert inert⟩
    have same : (dotted (name :: rest)).map trim = dotted (name :: rest) :=
      (map_congr_left fun path member => (dotted_inert named path member).2.1).trans (map_id _)
    exact (argTexts_join (cons_ne_nil _ _) closed).trans (congrArg _ same)

theorem shape_concat : shape platform (concatCall names) = .ok (.call "concat" (dotted names)) := by
  have begins := concatCall_begins names
  have noNumber : Float64.parseBits (concatCall names) = none :=
    Float64.parseBits_letter begins (by decide) (by decide) (by decide)
  have double : startsWith (concatCall names) "\"" = false := startsWith_cons "\"" begins rfl (by decide)
  have single : startsWith (concatCall names) "'" = false := startsWith_cons "'" begins rfl (by decide)
  have read : shape platform (concatCall names) = (if (trim (join "," (dotted names))).isEmpty then .ok []
      else argTexts (join "," (dotted names))).map (.call "concat") :=
    shape_call (by decide) (by decide) (trim_concatCall names) double single noNumber
  rw [read, argTexts_dotted named]
  rfl

theorem parse_concat : parse platform (concatCall names) = .ok (.fnCall "concat" ((dotted names).map .field)) := by
  rw [parse_eq, shape_concat named]
  change ((dotted names).mapM (parse platform)).map _ = _
  rw [mapM_parse_fields (dotted_valid named)]
  rfl

end

theorem evalAll_fields (body : Json) (paths : List String) (moment : Nat) :
    evalAll host platform body (paths.map .field) moment =
      ((paths.mapM (resolveField body)).mapError .err, moment) := by
  induction paths with
  | nil => rfl
  | cons path paths ih =>
    rw [map_cons, evalAll, eval, mapM_cons]
    cases resolveField body path with
    | error e => rfl
    | ok value =>
      simp only [Except.mapError, ih]
      cases paths.mapM (resolveField body) <;> rfl

theorem eval_concatCall (body : Json) (paths : List String) (moment : Nat) :
    (eval host platform body (.fnCall "concat" (paths.map .field)) moment).1 =
      ((paths.mapM (resolveField body)).mapError .err).map fun values =>
        .str (String.join (values.map (valueToString host))) := by
  rw [eval, evalAll_fields]
  cases paths.mapM (resolveField body) <;> rfl

end Expr

section

variable (target : IsTarget platform dest)
include target

theorem IsTarget.not_mem {c : Char} (ascii : c.toNat < 128)
    (sign : (c.isAlphanum || c = '_' || c = '.') = false) : c ∉ dest.toList :=
  fun inside => Expr.isFieldChar_ne (target.plain c inside) ascii sign rfl

theorem assignment_concat : assignment (concatExpr dest names) = .ok (dest, concatCall names) := by
  have equals : '=' ∉ dest.toList := target.not_mem (by decide) (by decide)
  have found : Text.find (concatExpr dest names) "=" = some (len dest) :=
    find_singleton "=" rfl equals
  have front : sliceTo (concatExpr dest names) (len dest) = some dest := by
    rw [concatExpr, String.append_assoc]
    exact sliceTo_append _ _
  have back : sliceFrom (concatExpr dest names) (len dest + 1) = some (concatCall names) := by
    have one : len dest + 1 = len (dest ++ "=") := by
      rw [len_append]
      rfl
    rw [one]
    exact sliceFrom_append _ _
  have trimmed : trim dest = dest := Expr.trim_of_fieldChars target.plain
  have filled : dest.isEmpty = false := by simpa using target.some
  have filled' : (concatCall names).isEmpty = false := by simp [concatCall]
  simp only [assignment, found, front, back, inBounds, bind, Except.bind, trimmed, trim_concatCall, filled, filled',
    Bool.or_self, Bool.false_eq_true, if_false]
  rfl

theorem evalMapExpression_concat (named : ∀ name ∈ names, IsName platform name)
    {body : Bytes} {fields : Json.Fields} (read : bodyJson host body = .ok (.obj fields)) :
    evalMapExpression host platform (concatExpr dest names) body =
      (((dotted names).mapM (resolveField (.obj fields))).mapError .err).map fun values =>
        host.toVec (.obj (fields.insert dest (.str (String.join (values.map (valueToString host)))))) := by
  simp only [evalMapExpression, assignment_concat target, read, bind, Except.bind, assign, Expr.parse_concat named,
    Expr.eval_concatCall]
  cases (dotted names).mapM (resolveField (.obj fields)) with
  | error e => rfl
  | ok values => simp [Except.mapError, Except.map, setField, split_of_not_mem target.single, pure, Except.pure]

end

def Schema.Declares (schema : Schema) (name : String) : Prop :=
  schema.fields.find? (·.name = name) = some ⟨name, .string, true⟩

theorem checkParts_dotted {compiler : Compiler} {schema : Schema} (form : String) {names : List String}
    (named : ∀ name ∈ names, IsName platform name) (declared : ∀ name ∈ names, schema.Declares name) :
    compiler.checkParts schema form (dotted names) = .ok () := by
  induction names with
  | nil => rfl
  | cons name names ih =>
    have trimmed : trim ("." ++ name) = "." ++ name := (dotted_inert named _ mem_cons_self).2.1
    have known : schema.fieldType name = some .string := by
      rw [Schema.fieldType, declared name mem_cons_self]
      rfl
    have later := ih (fun name later => named name (mem_cons_of_mem _ later))
      (fun name later => declared name (mem_cons_of_mem _ later))
    rw [dotted, map_cons, Compiler.checkParts, trimmed, stripPrefix_append]
    dsimp only
    rw [known]
    exact later

theorem typeCheckMap_concat {compiler : Compiler} {schema : Schema} (target : IsTarget platform dest)
    (named : ∀ name ∈ names, IsName platform name) (declared : ∀ name ∈ names, schema.Declares name) :
    compiler.typeCheckMap schema (concatExpr dest names) = .ok () := by
  have equals : '=' ∉ dest.toList := target.not_mem (by decide) (by decide)
  have cut : splitFirst (concatExpr dest names) '=' = some (dest, concatCall names) := by
    have sign : "=" = String.singleton '=' := rfl
    rw [concatExpr, sign]
    exact splitFirst_singleton equals
  have filled : (concatCall names).isEmpty = false := by simp [concatCall]
  have front : concatCall names = "concat(" ++ join "," (dotted names) ++ String.singleton ')' := rfl
  have starts : startsWith (concatCall names) "concat(" = true := by
    rw [front, String.append_assoc]
    exact startsWith_iff.mpr ⟨_, rfl⟩
  have ends : endsWith (concatCall names) ")" = true := endsWith_iff.mpr ⟨_, rfl⟩
  have inside : interior (concatCall names) 7 = join "," (dotted names) := by
    exact interior_between "concat(" _ ')'
  have plus : contains (concatCall names) '+' = false :=
    decide_eq_false (concatCall_not_mem named (by decide) (by decide) (by decide))
  have checked : compiler.checkParts schema "concat()" (split (join "," (dotted names)) ',') = .ok () := by
    cases names with
    | nil => rfl
    | cons name names =>
      have free : ∀ path ∈ dotted (name :: names), ',' ∉ path.toList := by
        intro path member comma
        exact ((dotted_inert named path member).2.2 ',' comma).2.2.2.2 rfl
      have parts : split (join "," (dotted (name :: names))) ',' = dotted (name :: names) :=
        split_join free (cons_ne_nil _ _)
      rw [parts]
      exact checkParts_dotted _ named declared
  simp only [Compiler.typeCheckMap, cut, trim_concatCall, starts, ends, inside, checked, plus]
  rfl

theorem execMap_concat {plan : ExecutionPlan} {instr : Instruction} (target : IsTarget platform dest)
    (named : ∀ name ∈ names, IsName platform name) (stored : plan.constPool.get? instr.a = some (concatExpr dest names))
    (body : Bytes) : execMap (host.evaluating platform) body instr plan =
      evalMapExpression host platform (concatExpr dest names) body := by
  have chars : (concatExpr dest names).toList = dest.toList ++ '=' :: (concatCall names).toList := by simp [concatExpr]
  have colon : ':' ∉ (concatExpr dest names).toList := by
    rw [chars, mem_append, mem_cons]
    rintro (front | sign | back)
    · exact target.not_mem (by decide) (by decide) front
    · exact absurd sign (by decide)
    · exact concatCall_not_mem named (by decide) (by decide) (by decide) back
  have plugin : startsWith (concatExpr dest names) "w:" = false := startsWith_of_not_mem "w:" colon (by decide)
  have filled : concatExpr dest names ≠ "" := by
    intro empty
    rw [empty] at chars
    simp at chars
  have equals : contains (concatExpr dest names) '=' = true := decide_eq_true (by simp [chars])
  simp only [execMap, stored, plugin, filled, equals]
  rfl

theorem exists_texts {schema : Schema} {fields : Json.Fields} (declared : ∀ name ∈ names, schema.Declares name)
    (valid : schema.isValid host (.obj fields) = .ok ()) :
    ∃ texts : List String, names.map fields.get? = texts.map fun text => some (.str text) := by
  induction names with
  | nil => exact ⟨[], rfl⟩
  | cons name names ih =>
    obtain ⟨texts, rest⟩ := ih fun name later => declared name (mem_cons_of_mem _ later)
    have field := declared name mem_cons_self
    have admits := Schema.isValid_iff.mp valid _ (mem_of_find?_eq_some field)
    cases found : fields.get? name with
    | none =>
      rw [found] at admits
      cases admits
    | some value =>
      rw [found] at admits
      cases value with
      | str text => exact ⟨text :: texts, by rw [map_cons, map_cons, found, rest]⟩
      | _ => cases admits

/-- What the name of a field leads to if the empty key of the body stands before it. -/
def behindEmptyKey (fields : Json.Fields) (name : String) : Option Json :=
  (fields.get? "").bind (·.atPath (Text.split name '.'))

theorem resolveField_dotted (fields : Json.Fields) (name : String) :
    (resolveField (.obj fields) ("." ++ name)).toOption = behindEmptyKey fields name := by
  have parts : split ("." ++ name) '.' = "" :: split name '.' := by
    have chars : ("." ++ name).toList = [] ++ '.' :: name.toList := by simp
    rw [split, chars]
    rfl
  rw [resolveField, parts, resolveParts_toOption, Json.atPath_cons, behindEmptyKey]

theorem mapM_dotted (fields : Json.Fields) (names : List String) (values : List Json) :
    (dotted names).mapM (resolveField (.obj fields)) = .ok values ↔
      names.map (behindEmptyKey fields) = values.map some := by
  rw [Traverse.mapM_eq_ok_iff, dotted, map_map]
  simp only [Function.comp_def, resolveField_dotted]

/-- The compiler accepts the concatenation of required strings. It gives the texts of the fields only if the empty key
of the body leads to them. -/
theorem execMap_concat_iff (host : Host) (platform : Platform) (compiler : Compiler) (schema : Schema)
    (plan : ExecutionPlan) (instr : Instruction) (dest : String) (names : List String) (body : Bytes)
    (fields : Json.Fields) (target : IsTarget platform dest) (named : ∀ name ∈ names, IsName platform name)
    (stored : plan.constPool.get? instr.a = some (concatExpr dest names))
    (declared : ∀ name ∈ names, schema.Declares name) (read : bodyJson host body = .ok (.obj fields))
    (valid : schema.isValid host (.obj fields) = .ok ()) :
    compiler.typeCheckMap schema (concatExpr dest names) = .ok () ∧
      ∃ texts : List String, (names.map fields.get? = texts.map fun text => some (.str text)) ∧
        (execMap (host.evaluating platform) body instr plan =
            .ok (host.toVec (.obj (fields.insert dest (.str (String.join texts))))) ↔
          ∃ values : List Json, names.map (behindEmptyKey fields) = values.map some ∧
            host.toVec (.obj (fields.insert dest (.str (String.join (values.map (valueToString host)))))) =
              host.toVec (.obj (fields.insert dest (.str (String.join texts))))) := by
  obtain ⟨texts, same⟩ := exists_texts declared valid
  refine ⟨typeCheckMap_concat target named declared, texts, same, ?_⟩
  rw [execMap_concat target named stored, evalMapExpression_concat target named read]
  simp only [← mapM_dotted]
  cases (dotted names).mapM (resolveField (.obj fields)) with
  | error e => simp [Except.mapError, Except.map]
  | ok values => simp [Except.mapError, Except.map]

section Samples

def mapPlan (expr : String) : ExecutionPlan := { ExecutionPlan.new "r" with constPool := (Interner.empty.add expr).1 }

def firstLast : Schema := ⟨[⟨"first", .string, true⟩, ⟨"last", .string, true⟩]⟩

def personText : String := "\x7b\"first\":\"Jo\",\"last\":\"Li\"\x7d"

def person : Json.Fields := [("first", .str "Jo"), ("last", .str "Li")]

def nestedText : String := "\x7b\"\":\x7b\"first\":\"Jo\"\x7d,\"first\":\"Jo\",\"last\":\"Li\"\x7d"

def nested : Json.Fields := ("", .obj [("first", .str "Jo")]) :: person

def personHost : Host := Host.reading [(personText, .obj person), (nestedText, .obj nested)]

def mapInstr : Instruction := ⟨.map, 0, 0, 0, 0⟩

end Samples

/-- A body that has the field below the empty key also. -/
theorem execMap_concat_nested :
    execMap (personHost.evaluating Platform.ascii) (Utf8.encode nestedText) mapInstr (mapPlan (concatExpr "full" ["first"])) =
      .ok (personHost.toVec (.obj (nested.insert "full" (.str "Jo")))) := by
  have target : IsTarget Platform.ascii "full" := ⟨by decide, all_eq_true.mp (by decide), by decide⟩
  have named : ∀ name ∈ ["first"], IsName Platform.ascii name := by
    rintro name (_ | ⟨_, ⟨⟩⟩)
    exact ⟨all_eq_true.mp (by decide), by decide +kernel⟩
  have declared : ∀ name ∈ ["first"], firstLast.Declares name := by
    rintro name (_ | ⟨_, ⟨⟩⟩)
    rfl
  obtain ⟨-, texts, same, law⟩ := execMap_concat_iff personHost Platform.ascii Compiler.ascii firstLast
    (mapPlan (concatExpr "full" ["first"])) mapInstr "full" ["first"] (Utf8.encode nestedText) nested target named (by rfl)
    declared (by rfl) (by rfl)
  obtain ⟨text, rfl, found⟩ : ∃ text, texts = [text] ∧ nested.get? "first" = some (.str text) := by
    cases texts with
    | nil => cases same
    | cons text rest =>
      obtain ⟨found, none⟩ := List.cons.inj same
      exact ⟨text, by rw [map_eq_nil_iff.mp none.symm], found⟩
  cases found
  exact law.mpr ⟨[.str "Jo"], rfl, rfl⟩

/-- The expression of the compiler's own test, with an ordinary body. -/
theorem execMap_concat_not : let expr := concatExpr "full" ["first", "last"]
    expr = "full=concat(.first,.last)" ∧
      Compiler.ascii.typeCheckMap firstLast expr = .ok () ∧ firstLast.isValid personHost (.obj person) = .ok () ∧
      execMap (personHost.evaluating Platform.ascii) (Utf8.encode personText) mapInstr (mapPlan expr) =
        .error (.err "FieldNotFound: path segment '' not found in '.first'") := by
  decide +kernel

end FlowRulZ
