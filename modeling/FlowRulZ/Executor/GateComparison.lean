import FlowRulZ.Dsl.Schema
import FlowRulZ.Executor.DagResults
import FlowRulZ.Executor.Gate
import Mathlib.Data.String.Basic

/-! # Gates and the values they compare

A gate compares the text of a field.  The text of a string has its quotation marks, so a value without
them is never equal to it, and it is no number.
-/

namespace FlowRulZ

open GateOp

/-- The text of a string begins with a quotation mark. -/
def Host.Quotes (host : Host) : Prop := ∀ s, ∃ rest, (host.jsonText (.str s)).toList = '"' :: rest

/-- A value is written as a word: it is the string, or a value of another kind with that text. -/
def Json.WrittenAs (host : Host) (value : Json) (word : String) : Prop :=
  value = .str word ∨ (∀ s, value ≠ .str s) ∧ host.jsonText value = word

def GateOp.Orders : GateOp → String → String → Prop
  | .gt, s, t => t < s
  | .lt, s, t => s < t
  | .gte, s, t => t ≤ s
  | .lte, s, t => s ≤ t
  | _, _, _ => False

def GateOp.comparesZero : GateOp → XRat → Bool
  | .gt, n => n.lt (.fin 0)
  | .lt, n => (XRat.fin 0).lt n
  | .gte, n => n.le (.fin 0)
  | .lte, n => (XRat.fin 0).le n
  | _, _ => false

def GateOp.isOrdering : GateOp → Bool
  | .gt | .lt | .gte | .lte => true
  | _ => false

theorem GateOp.parse_surjective : ∀ op : GateOp, ∃ text, parse text = some op
  | .eq => ⟨"==", rfl⟩
  | .ne => ⟨"!=", rfl⟩
  | .gt => ⟨">", rfl⟩
  | .lt => ⟨"<", rfl⟩
  | .gte => ⟨">=", rfl⟩
  | .lte => ⟨"<=", rfl⟩
  | .contains => ⟨"contains", rfl⟩

structure Follows (compiler : Compiler) (host : Host) (schema : Schema) (plan : ExecutionPlan) (body : Bytes)
    (a b : UInt16) (path word : String) (field : Json) : Prop where
  equal : evaluate host body (.gate a GateOp.eq.toU8 b) plan = some true ↔ field.WrittenAs host word
  unequal : evaluate host body (.gate a GateOp.ne.toU8 b) plan = some true ↔ ¬ field.WrittenAs host word
  contains : ∀ items, field = .arr items →
    (evaluate host body (.gate a GateOp.contains.toU8 b) plan = some true ↔
      ∃ item ∈ items, item = .str word ∨ host.jsonText item = word)
  ordering : ∀ s, field = .str s → ∀ text op, GateOp.parse text = some op → op.isOrdering = true →
    compiler.typeCheckGate schema path text = .ok () →
    (evaluate host body (.gate a op.toU8 b) plan = some true ↔ op.Orders s word)

/-- The field is not the word as a string. An array has the word in its text just if it has it for an item. A string
whose order is checked is on the same side of the word as 0 is of the word's number. -/
structure GateFits (host : Host) (schema : Schema) (path word : String) (field : Json) : Prop where
  differs : field ≠ .str word
  members : ∀ items, field = .arr items →
    (Text.containsStr (host.jsonText (.arr items)) word = true ↔
      ∃ item ∈ items, item = .str word ∨ host.jsonText item = word)
  sides : ∀ s, field = .str s → (∀ type, schema.fieldType path = some type → type.supportsOrdering = true) →
    (XRat.fin 0).lt (numberOf word) = true ∧ s < word ∨ (numberOf word).lt (.fin 0) = true ∧ word < s

section

variable {host : Host}

theorem quoted_ne (quotes : host.Quotes) {word : String} (bare : '"' ∉ word.toList) (s : String) :
    host.jsonText (.str s) ≠ word := by
  rintro rfl
  obtain ⟨rest, text⟩ := quotes s
  exact bare (text ▸ List.mem_cons_self)

theorem numberOf_quoted (quotes : host.Quotes) (s : String) : numberOf (host.jsonText (.str s)) = .fin 0 := by
  obtain ⟨rest, text⟩ := quotes s
  have none : Literal.parse (host.jsonText (.str s)) = none := by
    simp [Literal.parse, text, Literal.unsigned, Literal.number]
  rw [numberOf, Float64.parse, none]
  rfl

/-- Whether the type check accepts an ordering does not depend on which one it is. -/
theorem typeCheckGate_ordering (compiler : Compiler) (schema : Schema) (path : String) {text : String} {op : GateOp}
    (parsed : GateOp.parse text = some op) (ordering : op.isOrdering = true) :
    compiler.typeCheckGate schema path text = .ok () ↔
      ∀ type, schema.fieldType path = some type → type.supportsOrdering = true := by
  have branches : (text == "==" || text == "!=") = false ∧
      (text == ">" || text == "<" || text == ">=" || text == "<=") = true := by
    unfold GateOp.parse at parsed
    split at parsed
    case h_3 | h_4 | h_5 | h_6 => decide
    case h_1 | h_2 | h_7 =>
      cases parsed
      cases ordering
    case h_8 => cases parsed
  unfold Compiler.typeCheckGate
  cases schema.fieldType path with
  | none => simp
  | some type =>
    simp only [branches.1, branches.2, Option.some.injEq, forall_eq']
    cases type.supportsOrdering <;> simp

theorem compareValues_quoted (quotes : host.Quotes) (s word : String) {op : GateOp} (ordering : op.isOrdering = true) :
    compareValues (host.jsonText (.str s)) op.toU8 word = op.comparesZero (numberOf word) := by
  have zero := numberOf_quoted quotes s
  cases op with
  | gt | lt | gte | lte => simp [compareValues, toU8, comparesZero, zero]
  | _ => cases ordering

theorem compares_less {m n : XRat} (less : m.lt n = true) : n.lt m = false ∧ n.le m = false ∧ m.le n = true := by
  cases m with
  | nan => cases less
  | inf negative => cases n <;> cases negative <;> simp_all [XRat.lt, XRat.le]
  | fin q =>
    cases n with
    | nan => cases less
    | inf negative => cases negative <;> simp_all [XRat.lt, XRat.le]
    | fin q' =>
      simp only [XRat.lt, decide_eq_true_eq] at less
      simp [XRat.lt, XRat.le, less, less.le]

/-- The order of a string and another word agrees with that of 0 and a number if and only if they are on the
    same side. -/
theorem orders_iff_sides {s word : String} (differ : s ≠ word) (n : XRat) :
    (∀ op : GateOp, op.isOrdering = true → (op.comparesZero n = true ↔ op.Orders s word)) ↔
      (XRat.fin 0).lt n = true ∧ s < word ∨ n.lt (.fin 0) = true ∧ word < s := by
  constructor
  · intro agree
    rcases lt_or_gt_of_ne differ with less | greater
    · exact .inl ⟨(agree .lt rfl).mpr less, less⟩
    · exact .inr ⟨(agree .gt rfl).mpr greater, greater⟩
  · rintro (⟨above, less⟩ | ⟨below, greater⟩) op ordering
    · obtain ⟨notBelow, notLe, le⟩ := compares_less above
      cases op with
      | gt | lt | gte | lte =>
        simp [comparesZero, GateOp.Orders, above, notBelow, notLe, le, less, less.le, less.not_gt, less.not_ge]
      | _ => cases ordering
    · obtain ⟨notAbove, notLe, le⟩ := compares_less below
      cases op with
      | gt | lt | gte | lte =>
        simp [comparesZero, GateOp.Orders, below, notAbove, notLe, le, greater, greater.le, greater.not_gt,
          greater.not_ge]
      | _ => cases ordering

theorem writtenAs_iff (quotes : host.Quotes) {word : String} (bare : '"' ∉ word.toList) (field : Json) :
    (host.jsonText field = word ↔ field.WrittenAs host word) ↔ field ≠ .str word := by
  constructor
  · rintro agree rfl
    exact quoted_ne quotes bare word (agree.mpr (.inl rfl))
  · intro differs
    constructor
    · intro same
      refine .inr ⟨?_, same⟩
      rintro s rfl
      exact quoted_ne quotes bare s same
    · rintro (string | ⟨-, same⟩)
      · exact absurd string differs
      · exact same

/-- The gates on a field follow its value if and only if the word fits. -/
theorem follows_iff {compiler : Compiler} {schema : Schema} {plan : ExecutionPlan} {a b : UInt16}
    {path word text : String} {fields : Json.Fields} {field : Json} (quotes : host.Quotes) (bare : '"' ∉ word.toList)
    (named : plan.constPool.get? a = some path) (written : plan.constPool.get? b = some word)
    (read : host.fromSlice (Utf8.encode text) = .ok (.obj fields))
    (present : (Json.obj fields).atPath (Text.split path '.') = some field) :
    Follows compiler host schema plan (Utf8.encode text) a b path word field ↔ GateFits host schema path word field := by
  have gate (code : UInt8) : evaluate host (Utf8.encode text) (.gate a code b) plan =
      some (compareValues (host.jsonText field) code word) := by
    simp [evaluate, Instruction.gate, named, written, extractJsonField, Utf8.fromUtf8_encode, read, present]
  have equal : evaluate host (Utf8.encode text) (.gate a eq.toU8 b) plan = some true ↔ host.jsonText field = word := by
    rw [gate]
    simp [compareValues, toU8]
  have unequal : evaluate host (Utf8.encode text) (.gate a ne.toU8 b) plan = some true ↔
      ¬ host.jsonText field = word := by
    rw [gate]
    simp [compareValues, toU8]
  have contains : evaluate host (Utf8.encode text) (.gate a contains.toU8 b) plan = some true ↔
      Text.containsStr (host.jsonText field) word = true := by
    rw [gate]
    simp [compareValues, toU8]
  have ordering : ∀ s, field = .str s → ∀ op : GateOp, op.isOrdering = true →
      (evaluate host (Utf8.encode text) (.gate a op.toU8 b) plan = some true ↔
        op.comparesZero (numberOf word) = true) := by
    rintro s rfl op ordering
    rw [gate, compareValues_quoted quotes s word ordering, Option.some.injEq]
  constructor
  · intro follows
    have differs : field ≠ .str word := (writtenAs_iff quotes bare field).mp (equal.symm.trans follows.equal)
    refine ⟨differs, ?_, ?_⟩
    · rintro items rfl
      exact contains.symm.trans (follows.contains items rfl)
    · rintro s rfl ordered
      refine (orders_iff_sides (fun same => differs (congrArg Json.str same)) (numberOf word)).mp ?_
      intro op isOrdering
      obtain ⟨sign, parsed⟩ := parse_surjective op
      have accepted := (typeCheckGate_ordering compiler schema path parsed isOrdering).mpr ordered
      exact (ordering s rfl op isOrdering).symm.trans (follows.ordering s rfl sign op parsed isOrdering accepted)
  · intro fits
    have same := (writtenAs_iff quotes bare field).mpr fits.differs
    refine ⟨equal.trans same, unequal.trans (not_congr same), ?_, ?_⟩
    · rintro items rfl
      exact contains.trans (fits.members items rfl)
    · rintro s rfl sign op parsed isOrdering accepted
      have ordered := (typeCheckGate_ordering compiler schema path parsed isOrdering).mp accepted
      have agree := (orders_iff_sides (fun same => fits.differs (congrArg Json.str same)) (numberOf word)).mpr
        (fits.sides s rfl ordered)
      exact (ordering s rfl op isOrdering).trans (agree op isOrdering)

end

theorem reading_quotes (texts : List (String × Json)) : (Host.reading texts).Quotes := by
  intro s
  refine ⟨s.toList.flatMap JsonGrammar.escape ++ ['"'], ?_⟩
  simp [Host.reading, Host.terse, Json.print]

def gateText : String := "\x7b\"s\":\"active\",\"tags\":[\"vip\"]\x7d"

def gateFields : Json.Fields := [("s", .str "active"), ("tags", .arr [.str "vip"])]

def gateHost : Host := Host.reading [(gateText, .obj gateFields)]

def gatePlan (path word : String) : ExecutionPlan :=
  { ExecutionPlan.new "r" with constPool := ((Interner.empty.add path).1.add word).1 }

/-- An array that has the word. -/
theorem follows_vip : Follows Compiler.ascii gateHost ⟨[]⟩ (gatePlan "tags" "vip") (Utf8.encode gateText) 0 1 "tags" "vip"
    (.arr [.str "vip"]) := by
  have read : gateHost.fromSlice (Utf8.encode gateText) = .ok (.obj gateFields) := rfl
  refine (follows_iff (reading_quotes _) (by decide) rfl rfl read rfl).mpr ⟨nofun, ?_, nofun⟩
  rintro items same
  cases same
  exact ⟨fun _ => ⟨_, List.mem_singleton_self _, .inl rfl⟩, fun _ => rfl⟩

/-- A string that is the word: the gate for equality is closed, and the one for the contrary is open. An array with a
longer word contains the word, and a string before the word is not less than it. -/
theorem follows_not : (Json.obj gateFields).atPath (Text.split "s" '.') = some (.str "active") ∧
    (Json.obj gateFields).atPath (Text.split "tags" '.') = some (.arr [.str "vip"]) ∧
    evaluate gateHost (Utf8.encode gateText) (.gate 0 GateOp.eq.toU8 1) (gatePlan "s" "active") = some false ∧
    evaluate gateHost (Utf8.encode gateText) (.gate 0 GateOp.ne.toU8 1) (gatePlan "s" "active") = some true ∧
    evaluate gateHost (Utf8.encode gateText) (.gate 0 GateOp.contains.toU8 1) (gatePlan "tags" "vi") = some true ∧
    evaluate gateHost (Utf8.encode gateText) (.gate 0 GateOp.lt.toU8 1) (gatePlan "s" "b") = some false ∧ "active" < "b" ∧
    ¬ Follows Compiler.ascii gateHost ⟨[]⟩ (gatePlan "s" "active") (Utf8.encode gateText) 0 1 "s" "active"
      (.str "active") := by
  refine ⟨rfl, rfl, rfl, rfl, rfl, by decide +kernel, by decide, ?_⟩
  intro follows
  cases follows.equal.mpr (.inl rfl)

end FlowRulZ
