import FlowRulZ.Executor.Dag
import FlowRulZ.Executor.DeepMerge
import FlowRulZ.Lib.JsonGrammar

/-! # The results of a DAG

`merge_dag_results` makes one JSON text of what the terminal services answered.  Three strategies
print a value.  `LastWins` puts the answers into a text as they are, and `ExplicitMap` enters a
failed service under another name than its own.
-/

namespace FlowRulZ

open List

open JsonGrammar

namespace Json

/-- What JSON text stands for, if its numerals are read so; a later member of an object replaces an earlier one of its
name. -/
def algebra (number : List Char → Option JsonNumber) : Algebra Json where
  null := .null
  bool := .bool
  number text := (number text).map .num
  string := .str
  array := .arr
  object members := .obj (members.foldl (fun fields m => Fields.insert m.1 m.2 fields) [])

variable {number : List Char → Option JsonNumber}

def IsText (number : List Char → Option JsonNumber) (bytes : Bytes) (value : Json) : Prop :=
  ∃ s : String, bytes = Utf8.encode s ∧ Denotes (algebra number) s.toList value

/-- Every number has a numeral, and every object has its fields in order. -/
inductive WellFormed (number : List Char → Option JsonNumber) : Json → Prop
  | null : WellFormed number .null
  | bool (b : Bool) : WellFormed number (.bool b)
  | num {text : List Char} {n : JsonNumber} : Numeral text → number text = some n → WellFormed number (.num n)
  | str (s : String) : WellFormed number (.str s)
  | arr {items : List Json} : (∀ item ∈ items, WellFormed number item) → WellFormed number (.arr items)
  | obj {fields : Fields} : fields.Pairwise (·.1 < ·.1) → (∀ field ∈ fields, WellFormed number field.2) →
      WellFormed number (.obj fields)

namespace Fields

variable {key : String} {value : Json} {fields : Fields}

/-- A name whose members agree is found, wherever it stands. -/
theorem get?_foldl_insert {members : List (String × Json)} (agree : ∀ m ∈ members, m.1 = key → m.2 = value)
    (there : fields.get? key = some value ∨ ∃ m ∈ members, m.1 = key) :
    (members.foldl (fun fields m => insert m.1 m.2 fields) fields).get? key = some value := by
  induction members generalizing fields with
  | nil => exact there.resolve_right (by simp)
  | cons m members ih =>
    obtain ⟨first, later⟩ := forall_mem_cons.mp agree
    apply ih later
    by_cases here : m.1 = key
    · left
      rw [← here, ← first here]
      exact get?_insert_self _ _ _
    · rw [get?_insert_other (Ne.symm here)]
      refine there.imp_right ?_
      rintro ⟨m', inside, same⟩
      refine ⟨m', (mem_cons.mp inside).resolve_left ?_, same⟩
      rintro rfl
      exact here same

end Fields

variable {fields : Fields} {value : Json}

theorem WellFormed.insert {key : String} (sound : value.WellFormed number)
    (object : WellFormed number (.obj fields)) : WellFormed number (.obj (fields.insert key value)) := by
  cases object with
  | obj sorted all =>
    refine .obj (Fields.sorted_insert sorted) ?_
    intro field inside
    rcases Fields.mem_insert inside with rfl | old
    · exact sound
    · exact all field old

theorem WellFormed.foldl_insert {members : List (String × Json)} (sound : ∀ m ∈ members, m.2.WellFormed number)
    (object : WellFormed number (.obj fields)) :
    WellFormed number (.obj (members.foldl (fun fields m => Fields.insert m.1 m.2 fields) fields)) := by
  exact List.foldlRecOn (motive := fun fields => WellFormed number (.obj fields)) _ _ object
    fun _ object m there => (sound m there).insert object

theorem wellFormed_empty : WellFormed number (.obj []) := .obj .nil (forall_mem_nil _)

theorem closed_wellFormed : Closed (WellFormed number) where
  empty := wellFormed_empty
  insert object value := value.insert object
  member object inside := by
    cases object with
    | obj _ all => exact all _ inside

theorem wellFormed_of_denotes {text : List Char} (denotes : Denotes (algebra number) text value) :
    value.WellFormed number := by
  induction denotes with
  | null => exact .null
  | bool b => exact .bool b
  | number numeral read =>
    obtain ⟨n, found, rfl⟩ := Option.map_eq_some_iff.mp read
    exact .num numeral found
  | string _ => exact .str _
  | emptyArray _ => exact .arr (forall_mem_nil _)
  | array _ _ ih =>
    refine .arr ?_
    rintro value inside
    obtain ⟨item, listed, rfl⟩ := mem_map.mp inside
    exact ih item listed
  | emptyObject _ => exact wellFormed_empty
  | object _ _ _ ih =>
    refine WellFormed.foldl_insert ?_ wellFormed_empty
    rintro entry inside
    obtain ⟨m, listed, rfl⟩ := mem_map.mp inside
    exact ih m listed
  | blanks _ _ _ ih => exact ih

mutual

/-- A text of a value. Numbers have none here. -/
def print : Json → List Char
  | .null => "null".toList
  | .bool b => if b then "true".toList else "false".toList
  | .num _ => []
  | .str s => '"' :: s.toList.flatMap escape ++ ['"']
  | .arr items => '[' :: separated ',' (printItems items) ++ [']']
  | .obj fields => '\x7b' :: separated ',' (printFields fields) ++ ['\x7d']

def printItems : List Json → List (List Char)
  | [] => []
  | item :: items => print item :: printItems items

def printFields : Fields → List (List Char)
  | [] => []
  | (name, value) :: fields => ('"' :: name.toList.flatMap escape ++ '"' :: ':' :: print value) :: printFields fields

end

theorem printItems_eq (items : List Json) : printItems items = items.map print := by
  induction items with
  | nil => rfl
  | cons item items ih => rw [printItems, ih, map_cons]

def printed (field : String × Json) : Member Json where
  before := []
  spelling := field.1.toList.flatMap escape
  after := []
  text := print field.2
  name := field.1
  value := field.2

theorem printFields_eq (fields : Fields) : printFields fields = (fields.map printed).map Member.whole := by
  induction fields with
  | nil => rfl
  | cons field fields ih =>
    rw [printFields, ih]
    simp [printed, Member.whole]

theorem Fields.insert_last {key : String} (last : ∀ field ∈ fields, field.1 < key) :
    fields.insert key value = fields ++ [(key, value)] := by
  induction fields with
  | nil => rfl
  | cons field fields ih =>
    obtain ⟨first, later⟩ := forall_mem_cons.mp last
    rw [Fields.insert, if_neg (String.lt_asymm first), if_neg, ih later, cons_append]
    rintro rfl
    exact String.lt_irrefl _ first

theorem Fields.foldl_insert_sorted : ∀ {done : Fields}, (done ++ fields).Pairwise (·.1 < ·.1) →
    fields.foldl (fun fields m => Fields.insert m.1 m.2 fields) done = done ++ fields := by
  induction fields with
  | nil => simp
  | cons field fields ih =>
    intro done sorted
    have last : ∀ old ∈ done, old.1 < field.1 :=
      fun old inside => (pairwise_append.mp sorted).2.2 old inside field mem_cons_self
    rw [foldl_cons, Fields.insert_last last, ih (by simpa using sorted)]
    simp

theorem denotes_print (sound : value.WellFormed fun _ => none) : Denotes (algebra fun _ => none) value.print value := by
  induction sound with
  | null => exact .null
  | bool b => exact .bool b
  | num _ none => cases none
  | str s => exact .string (spells_escape s.toList)
  | @arr items _ ih =>
    rw [print, printItems_eq]
    rcases eq_or_ne items [] with rfl | some
    · exact .emptyArray rfl
    · have texts : (items.map fun item => (item.print, item)).map Prod.fst = items.map print := by simp
      have values : (algebra fun _ => none).array ((items.map fun item => (item.print, item)).map Prod.snd) =
          .arr items := by
        rw [map_map]
        exact congrArg arr (map_id items)
      rw [← texts, ← values]
      exact .array (by simpa using some) (by simpa using ih)
  | @obj fields sorted _ ih =>
    rw [print, printFields_eq]
    rcases eq_or_ne fields [] with rfl | some
    · exact .emptyObject rfl
    · have entries : (fields.map printed).map Member.entry = fields := by
        rw [map_map]
        exact map_id fields
      have whole : (algebra fun _ => none).object ((fields.map printed).map Member.entry) = .obj fields := by
        rw [entries]
        exact congrArg obj (Fields.foldl_insert_sorted sorted)
      rw [← whole]
      refine .object (by simpa using some) ?_ ?_
      · rintro m inside
        obtain ⟨field, -, rfl⟩ := mem_map.mp inside
        exact ⟨rfl, spells_escape _, rfl⟩
      · rintro m inside
        obtain ⟨field, listed, rfl⟩ := mem_map.mp inside
        exact ih field listed

end Json

/-- A host that reads and prints JSON: what it reads is the value of the text, and what it prints is a text of the
value. -/
structure Host.KnowsJson (host : Host) (number : List Char → Option JsonNumber) : Prop where
  reads : ∀ {bytes : Bytes} {value : Json}, host.fromSlice bytes = .ok value → Json.IsText number bytes value
  prints : ∀ {value : Json}, value.WellFormed number → Json.IsText number (host.toVec value) value

theorem Host.KnowsJson.wellFormed {host : Host} {number : List Char → Option JsonNumber}
    (knows : host.KnowsJson number) {bytes : Bytes} {value : Json} (read : host.fromSlice bytes = .ok value) :
    value.WellFormed number := by
  obtain ⟨s, -, denotes⟩ := knows.reads read
  exact Json.wellFormed_of_denotes denotes

/-- What a terminal service stands for: `null` if it failed, else its answer if that is JSON. -/
def outcome (host : Host) (st : DagState) (svcId : UInt16) : Option Json :=
  if st.hasFailed svcId then some .null
  else (st.result? svcId).bind fun resp => (host.fromSlice resp).toOption

theorem serviceName_inj {plan : ExecutionPlan} {id other : UInt16} {name : String}
    (first : serviceName plan id = .ok name) (second : serviceName plan other = .ok name) : id = other := by
  have entry : ∀ {id : UInt16}, serviceName plan id = .ok name → plan.services.entries[id.toNat]? = some name := by
    intro id called
    unfold serviceName at called
    split at called
    · rename_i row found
      rw [ServiceTable.get?, ServiceTable.rows_getElem?] at found
      obtain ⟨name', there, rfl⟩ := Option.map_eq_some_iff.mp found
      exact there.trans (congrArg some (Except.ok.inj called))
    · cases called
  obtain ⟨bound, -⟩ := List.getElem?_eq_some_iff.mp (entry first)
  have same := (getElem?_inj bound plan.services.nodup).mp ((entry first).trans (entry second).symm)
  exact UInt16.toNat_inj.mp same

def outcomes (host : Host) (plan : ExecutionPlan) (st : DagState) (ids : List UInt16) : List (String × Json) :=
  ids.filterMap fun id =>
    (serviceName plan id).toOption.bind fun name => (outcome host st id).map fun value => (name, value)

/-- The merged object has the outcome of every terminal service under its name. -/
def HasOutcomes (host : Host) (plan : ExecutionPlan) (st : DagState) (ids : List UInt16) (fields : Json.Fields) :
    Prop :=
  ∀ id ∈ ids, ∀ name, serviceName plan id = .ok name → ∀ value, outcome host st id = some value →
    fields.get? name = some value

section

variable {host : Host} {plan : ExecutionPlan} {st : DagState} {ids : List UInt16}

theorem mem_outcomes {m : String × Json} : m ∈ outcomes host plan st ids ↔
    ∃ id ∈ ids, serviceName plan id = .ok m.1 ∧ outcome host st id = some m.2 := by
  rw [outcomes, mem_filterMap]
  refine exists_congr fun id => and_congr_right fun _ => ?_
  obtain ⟨name, value⟩ := m
  cases named : serviceName plan id with
  | error e => simp [Except.toOption]
  | ok found => simp [Except.toOption, Option.map_eq_some_iff, and_comm]

theorem outcomes_cons (id : UInt16) {name : String} (named : serviceName plan id = .ok name) :
    outcomes host plan st (id :: ids) =
      ((outcome host st id).map fun value => (name, value)).toList ++ outcomes host plan st ids := by
  rw [outcomes, filterMap_cons, named]
  cases outcome host st id <;> rfl

theorem outcomes_cons_none {id : UInt16} (none : outcome host st id = none) :
    outcomes host plan st (id :: ids) = outcomes host plan st ids := by
  rw [outcomes, filterMap_cons, none]
  cases (serviceName plan id).toOption <;> rfl

theorem hasOutcomes_insert : HasOutcomes host plan st ids
    ((outcomes host plan st ids).foldl (fun fields m => Json.Fields.insert m.1 m.2 fields) []) := by
  intro id inside name called value came
  refine Json.Fields.get?_foldl_insert ?_ (.inr ⟨(name, value), mem_outcomes.mpr ⟨id, inside, called, came⟩, rfl⟩)
  rintro ⟨_, value'⟩ member rfl
  obtain ⟨other, -, called', came'⟩ := mem_outcomes.mp member
  obtain rfl := serviceName_inj called called'
  exact Option.some.inj (came'.symm.trans came)

/-- `ExplicitMap` enters the outcomes, if every failed service has the name it is entered under. -/
theorem explicitMap_eq (failed : ∀ id ∈ ids, st.hasFailed id = true → serviceName plan id = .ok s!"svc_{id.toNat}")
    (answered : ∀ id ∈ ids, st.hasFailed id = false → st.result? id ≠ none → ∃ name, serviceName plan id = .ok name)
    (merged : Json.Fields) : explicitMap host plan st merged ids =
      .ok ((outcomes host plan st ids).foldl (fun fields m => Json.Fields.insert m.1 m.2 fields) merged) := by
  induction ids generalizing merged with
  | nil => rfl
  | cons id ids ih =>
    obtain ⟨first, failed⟩ := forall_mem_cons.mp failed
    obtain ⟨listed, answered⟩ := forall_mem_cons.mp answered
    rw [explicitMap]
    split
    · rename_i gone
      rw [outcomes_cons id (first gone), outcome, if_pos gone]
      exact ih failed answered _
    · rename_i alive
      cases answer : st.result? id with
      | none =>
        rw [outcomes_cons_none (by simp [outcome, alive, answer])]
        exact ih failed answered _
      | some resp =>
        obtain ⟨name, called⟩ := listed (Bool.not_eq_true _ ▸ alive) (by simp [answer])
        rw [outcomes_cons id called, outcome, if_neg alive, answer]
        simp only [called, Option.bind]
        cases host.fromSlice resp with
        | error e => exact ih failed answered _
        | ok value => exact ih failed answered _

def PlainText (name : String) : Prop := name.toList.all isPlain = true

def member (name text : String) (value : Json) : Member Json where
  before := []
  spelling := name.toList
  after := []
  text := text.toList
  name := name
  value := value

theorem whole_member (name text : String) (value : Json) :
    (member name text value).whole = ("\"" ++ name ++ "\":" ++ text).toList := by
  simp [member, Member.whole]

variable {number : List Char → Option JsonNumber}

/-- The entries of `merge_last_wins` are the members of an object with the outcomes. -/
theorem lastWinsEntries_members (knows : host.KnowsJson number)
    (plain : ∀ id ∈ ids, st.hasFailed id = true ∨ st.result? id ≠ none →
      ∃ name, serviceName plan id = .ok name ∧ PlainText name)
    (json : ∀ id ∈ ids, st.hasFailed id = false → ∀ resp, st.result? id = some resp →
      ∃ value, host.fromSlice resp = .ok value) :
    ∃ (entries : List String) (members : List (Member Json)), lastWinsEntries plan st ids = .ok entries ∧
      members.map Member.whole = entries.map String.toList ∧
      members.map Member.entry = outcomes host plan st ids ∧
      (∀ m ∈ members, m.Named) ∧ ∀ m ∈ members, Denotes (Json.algebra number) m.text m.value := by
  induction ids with
  | nil => exact ⟨[], [], rfl, rfl, rfl, forall_mem_nil _, forall_mem_nil _⟩
  | cons id ids ih =>
    obtain ⟨first, plain⟩ := forall_mem_cons.mp plain
    obtain ⟨answers, json⟩ := forall_mem_cons.mp json
    obtain ⟨entries, members, computed, wholes, entered, named, denote⟩ := ih plain json
    -- one more member, whatever its text is
    have add : ∀ name text value, serviceName plan id = .ok name → PlainText name →
        Denotes (Json.algebra number) text.toList value → outcome host st id = some value →
        lastWinsEntries plan st (id :: ids) = .ok (("\"" ++ name ++ "\":" ++ text) :: entries) →
        ∃ (entries : List String) (members : List (Member Json)), lastWinsEntries plan st (id :: ids) = .ok entries ∧
          members.map Member.whole = entries.map String.toList ∧
          members.map Member.entry = outcomes host plan st (id :: ids) ∧
          (∀ m ∈ members, m.Named) ∧ ∀ m ∈ members, Denotes (Json.algebra number) m.text m.value := by
      intro name text value called plain denotes came written
      refine ⟨_, member name text value :: members, written, ?_, ?_, ?_, ?_⟩
      · rw [map_cons, map_cons, whole_member, wholes]
      · rw [map_cons, entered, outcomes_cons id called, came]
        rfl
      · exact forall_mem_cons.mpr ⟨⟨rfl, spells_plain plain, rfl⟩, named⟩
      · exact forall_mem_cons.mpr ⟨denotes, denote⟩
    cases gone : st.hasFailed id with
    | true =>
      obtain ⟨name, called, plain⟩ := first (.inl gone)
      refine add name "null" .null called plain Denotes.null (by simp [outcome, gone]) ?_
      simp [lastWinsEntries, gone, called, computed, bind, Except.bind, pure, Except.pure, String.append_assoc]
    | false =>
      cases answer : st.result? id with
      | none =>
        refine ⟨entries, members, ?_, wholes, ?_, named, denote⟩
        · simpa [lastWinsEntries, gone, answer] using computed
        · rw [entered, outcomes_cons_none (by simp [outcome, gone, answer])]
      | some resp =>
        obtain ⟨name, called, plain⟩ := first (.inr (by simp [answer]))
        obtain ⟨value, read⟩ := answers gone resp answer
        obtain ⟨text, rfl, denotes⟩ := knows.reads read
        refine add name text value called plain denotes (by simp [outcome, gone, answer, read, Except.toOption]) ?_
        simp [lastWinsEntries, gone, answer, called, computed, Utf8.fromUtf8Lossy_encode, bind, Except.bind, pure,
          Except.pure]

theorem denotes_object {entries : List String} {members : List (Member Json)}
    (wholes : members.map Member.whole = entries.map String.toList) (named : ∀ m ∈ members, m.Named)
    (denote : ∀ m ∈ members, Denotes (Json.algebra number) m.text m.value) :
    Denotes (Json.algebra number) ("\x7b" ++ Text.join "," entries ++ "\x7d").toList
      ((Json.algebra number).object (members.map Member.entry)) := by
  have joined : (Text.join "," entries).toList = separated ',' (members.map Member.whole) := by
    rw [wholes]
    exact Text.toList_join ',' entries
  have whole : ("\x7b" ++ Text.join "," entries ++ "\x7d").toList =
      '\x7b' :: separated ',' (members.map Member.whole) ++ ['\x7d'] := by
    rw [String.toList_append, String.toList_append, joined]
    rfl
  rw [whole]
  rcases eq_or_ne members [] with rfl | some
  · exact .emptyObject rfl
  · exact .object some named denote

end

/-- When a strategy writes JSON. `ExplicitMap` needs failed services to be named as it names them, and those that answer
to have a name; `LastWins` needs names without escapes for both, and answers that are JSON. -/
def Mergeable (host : Host) (plan : ExecutionPlan) (dag : DAGTable) (st : DagState) : Prop :=
  match dag.mergeStrategy with
  | .arrayConcat | .deepMerge => True
  | .explicitMap =>
      (∀ id ∈ dag.terminalNodes, st.hasFailed id = true → serviceName plan id = .ok s!"svc_{id.toNat}") ∧
      ∀ id ∈ dag.terminalNodes, st.hasFailed id = false → st.result? id ≠ none → ∃ name, serviceName plan id = .ok name
  | .lastWins =>
      (∀ id ∈ dag.terminalNodes, st.hasFailed id = true ∨ st.result? id ≠ none →
        ∃ name, serviceName plan id = .ok name ∧ PlainText name) ∧
      ∀ id ∈ dag.terminalNodes, st.hasFailed id = false → ∀ resp, st.result? id = some resp →
        ∃ value, host.fromSlice resp = .ok value

section

variable {host : Host} {number : List Char → Option JsonNumber} {dag : DAGTable} {st : DagState}

section

variable (knows : host.KnowsJson number)
include knows

theorem wellFormed_valueOrText (resp : Bytes) : (host.valueOrText resp).WellFormed number := by
  unfold Host.valueOrText
  split
  · rename_i value read
    exact knows.wellFormed read
  · exact .str _

theorem wellFormed_outcome {id : UInt16} {value : Json}
    (came : outcome host st id = some value) : value.WellFormed number := by
  unfold outcome at came
  split at came
  · cases came
    exact .null
  · obtain ⟨resp, -, read⟩ := Option.bind_eq_some_iff.mp came
    cases found : host.fromSlice resp with
    | error e => simp [found, Except.toOption] at read
    | ok value' =>
      obtain rfl : value' = value := by simpa [found, Except.toOption] using read
      exact knows.wellFormed found

theorem wellFormed_arrayConcat (ids : List UInt16) : Json.WellFormed number (.arr (ids.filterMap fun svcId =>
      if st.hasFailed svcId then some .null else (st.result? svcId).map host.valueOrText)) := by
  refine .arr ?_
  intro value inside
  obtain ⟨id, -, came⟩ := mem_filterMap.mp inside
  split at came
  · cases came
    exact .null
  · obtain ⟨resp, -, rfl⟩ := Option.map_eq_some_iff.mp came
    exact wellFormed_valueOrText knows resp

end

end

/-- A host that prints values without numbers, and of all texts reads `true` only. -/
def Host.terse : Host := { Host.mute with
  fromSlice := fun bytes => if bytes = Utf8.encode "true" then .ok (.bool true) else .error "expected value"
  jsonText := fun value => String.ofList value.print }

theorem terse_knowsJson : Host.terse.KnowsJson fun _ => none where
  reads := by
    intro bytes value read
    simp only [Host.terse] at read
    split_ifs at read with same
    cases read
    exact ⟨"true", same, .bool true⟩
  prints := by
    intro value sound
    refine ⟨String.ofList value.print, rfl, ?_⟩
    rw [String.toList_ofList]
    exact Json.denotes_print sound

def isBlankByte (b : UInt8) : Bool := b = 0x20 || b = 0x09 || b = 0x0A || b = 0x0D

/-- A host that prints values without numbers, and of all texts reads those of a list, also with blanks around them. -/
def Host.reading (texts : List (String × Json)) : Host := { Host.terse with
  fromSlice := fun bytes =>
    match texts.find? fun text => Utf8.encode text.1 = (bytes.dropWhile isBlankByte).rdropWhile isBlankByte with
    | some text => .ok text.2
    | none => .error "expected value" }

def twoServices : ExecutionPlan :=
  { ExecutionPlan.new "dag" with services := ((Interner.empty.add "b").1.add "c").1 }

end FlowRulZ
