import FlowRulZ.Executor.Fields

/-! # Deep merging

`deep_merge` goes through two objects together.  Under one key it takes the value of the second
object, and merges two objects again.
-/

namespace FlowRulZ.Json

variable {a b : Json} {key : String}

structure Closed (P : Json → Prop) : Prop where
  empty : P (.obj [])
  insert : ∀ {fields : Fields} {key : String} {value : Json},
    P (.obj fields) → P value → P (.obj (fields.insert key value))
  member : ∀ {fields : Fields} {field : String × Json}, P (.obj fields) → field ∈ fields → P field.2

theorem Closed.deepMerge {P : Json → Prop} (closed : Closed P) : P a → P b → P (Json.deepMerge a b) := by
  refine deepMerge.induct (fun a b => P a → P b → P (Json.deepMerge a b))
    (fun a fields => P (.obj a) → (∀ field ∈ fields, P field.2) → P (.obj (mergeFields a fields)))
    ?objects ?other ?done ?object ?leaf a b
  case objects =>
    intro a b ih left right
    exact ih left fun field inside => closed.member right inside
  case other =>
    intro a b apart left right
    rw [Json.deepMerge]
    · exact right
    · exact apart
  case done =>
    intro a left _
    exact left
  case object =>
    intro a key value fields object inner ih left all
    obtain ⟨first, later⟩ := List.forall_mem_cons.mp all
    have old : P ((a.get? key).getD (.obj [])) := by
      cases found : a.get? key with
      | none => exact closed.empty
      | some old => exact closed.member left (Fields.mem_of_get? found)
    rw [mergeFields, if_pos object]
    exact ih (closed.insert left (inner old first)) later
  case leaf =>
    intro a key value fields leaf ih left all
    obtain ⟨first, later⟩ := List.forall_mem_cons.mp all
    rw [mergeFields, if_neg leaf]
    exact ih (closed.insert left first) later

inductive Ordered : Json → Prop
  | null : Ordered .null
  | bool (b : Bool) : Ordered (.bool b)
  | num (n : JsonNumber) : Ordered (.num n)
  | str (s : String) : Ordered (.str s)
  | arr {items : List Json} : (∀ item ∈ items, Ordered item) → Ordered (.arr items)
  | obj {fields : Fields} : fields.Sorted → (∀ field ∈ fields, Ordered field.2) → Ordered (.obj fields)

theorem closed_ordered : Closed Ordered where
  empty := .obj .nil (List.forall_mem_nil _)
  insert object value := by
    cases object with
    | obj sorted all =>
      refine .obj (Fields.sorted_insert sorted) ?_
      intro field inside
      rcases Fields.mem_insert inside with rfl | old
      · exact value
      · exact all field old
  member object inside := by
    cases object with
    | obj _ all => exact all _ inside

def joined (old : Option Json) (value : Json) : Json :=
  if value.isObject then deepMerge (old.getD (.obj [])) value else value

variable {left right : Fields}

theorem mergeFields_get? (sorted : right.Sorted) (key : String) : (mergeFields left right).get? key =
      (right.get? key).elim (left.get? key) fun value => some (joined (left.get? key) value) := by
  induction right generalizing left with
  | nil =>
    rfl
  | cons field right ih =>
    obtain ⟨k, v⟩ := field
    obtain ⟨least, sorted⟩ := List.pairwise_cons.mp sorted
    have once : mergeFields left ((k, v) :: right) = mergeFields (left.insert k (joined (left.get? k) v)) right := by
      rw [mergeFields, joined]
      split_ifs <;> rfl
    rw [once, ih sorted, Fields.get?_cons]
    split_ifs with here
    · subst here
      rw [Fields.get?_of_lt least]
      exact Fields.get?_insert_self _ _ _
    · rw [Fields.get?_insert_other here]

theorem sorted_mergeFields (sorted : left.Sorted) : (mergeFields left right).Sorted := by
  induction right generalizing left with
  | nil =>
    exact sorted
  | cons field right ih =>
    rw [mergeFields]
    split_ifs
    · exact ih (Fields.sorted_insert sorted)
    · exact ih (Fields.sorted_insert sorted)

theorem Ordered.deepMerge_self_of (ordered : b.Ordered) : (b.isObject = true → deepMerge (.obj []) b = b) ∧
    deepMerge b b = b := by
  induction ordered with
  | null | bool | num | str | arr =>
    refine ⟨nofun, ?_⟩
    rw [deepMerge]
    nofun
  | @obj fields sorted _ ih =>
    have under : ∀ {key value}, fields.get? key = some value → ∀ old, old = none ∨ old = some value →
        joined old value = value := by
      intro key value found old known
      obtain ⟨empty, self⟩ := ih _ (Fields.mem_of_get? found)
      rw [joined]
      split_ifs with object
      · rcases known with rfl | rfl
        · exact empty object
        · exact self
      · rfl
    have merged : ∀ left : Fields, left.Sorted → (∀ key, left.get? key = none ∨ left.get? key = fields.get? key) →
        deepMerge (.obj left) (.obj fields) = .obj fields := by
      intro left sorted' part
      refine congrArg Json.obj (Fields.ext (sorted_mergeFields sorted') sorted ?_)
      intro key
      rw [mergeFields_get? sorted]
      cases found : fields.get? key with
      | none => exact (part key).elim id (·.trans found)
      | some value =>
        have known := part key
        rw [found] at known
        exact congrArg some (under found _ known)
    exact ⟨fun _ => merged [] .nil fun _ => .inl rfl, merged fields sorted fun _ => .inr rfl⟩

theorem Ordered.deepMerge_self (ordered : a.Ordered) : deepMerge a a = a := ordered.deepMerge_self_of.2

theorem deepMerge_other (other : a.isObject = false ∨ b.isObject = false) : deepMerge a b = b := by
  rw [deepMerge]
  rintro x y rfl rfl
  exact other.elim nofun nofun

theorem Ordered.deepMerge_twice (ordered : b.Ordered) :
    ∀ {a : Json}, a.Ordered → deepMerge (deepMerge a b) b = deepMerge a b := by
  induction ordered with
  | null | bool | num | str | arr =>
    intro a _
    rw [deepMerge_other (.inr rfl), deepMerge_other (.inr rfl)]
  | @obj right sorted all ih =>
    intro a ordered
    by_cases object : a.isObject = false
    · rw [deepMerge_other (.inl object)]
      exact (Ordered.obj sorted all).deepMerge_self
    obtain ⟨left, rfl⟩ := exists_fields (Bool.not_eq_false _ ▸ object)
    have ordered_merge := closed_ordered.deepMerge ordered (Ordered.obj sorted all)
    cases ordered_merge with
    | obj sorted' _ =>
      refine congrArg Json.obj (Fields.ext (sorted_mergeFields sorted') sorted' ?_)
      intro key
      rw [mergeFields_get? sorted]
      cases found : right.get? key with
      | none => rfl
      | some value =>
        have old : ((left.get? key).getD (.obj [])).Ordered := by
          cases there : left.get? key with
          | none => exact closed_ordered.empty
          | some old => exact closed_ordered.member ordered (Fields.mem_of_get? there)
        rw [mergeFields_get? sorted, found]
        refine congrArg some ?_
        by_cases object : value.isObject = true
        · simp only [joined, object, Option.elim_some]
          exact ih _ (Fields.mem_of_get? found) old
        · rw [joined, if_neg object, joined, if_neg object]

/-- `serde_json::Value`, whose maps have every key once and in order. -/
@[ext]
structure Value where
  json : Json
  ordered : json.Ordered

def Value.mergeJson (a b : Value) : Value := ⟨deepMerge a.json b.json, closed_ordered.deepMerge a.ordered b.ordered⟩

/-- The second map over the first, objects merged with objects. -/
structure Union (left right merged : Fields) : Prop where
  keys : ∀ key, merged.get? key ≠ none ↔ left.get? key ≠ none ∨ right.get? key ≠ none
  kept : ∀ key, right.get? key = none → merged.get? key = left.get? key
  taken : ∀ key value, right.get? key = some value → value.isObject = false → merged.get? key = some value
  nested : ∀ key old new, left.get? key = some (.obj old) → right.get? key = some (.obj new) →
    merged.get? key = some (deepMerge (.obj old) (.obj new))

theorem union_mergeFields (sorted : right.Sorted) : Union left right (mergeFields left right) where
  keys key := by
    rw [mergeFields_get? sorted]
    cases right.get? key <;> simp
  kept key missing := by
    rw [mergeFields_get? sorted, missing, Option.elim_none]
  taken key value found leaf := by
    rw [mergeFields_get? sorted, found]
    simp [joined, leaf]
  nested key old new found found' := by
    rw [mergeFields_get? sorted, found, found']
    simp [joined, isObject]

/-- Merging a value a second time changes nothing, nor does merging a value into itself. Objects are united field by
field. -/
theorem mergeJson_laws (a b : Value) : (a.mergeJson b).mergeJson b = a.mergeJson b ∧ a.mergeJson a = a ∧
      ∀ left right, a.json = .obj left → b.json = .obj right →
        ∃ merged, (a.mergeJson b).json = .obj merged ∧ Union left right merged := by
  refine ⟨Value.ext (b.ordered.deepMerge_twice a.ordered), Value.ext a.ordered.deepMerge_self, ?_⟩
  intro left right isLeft isRight
  have merged : (a.mergeJson b).json = deepMerge (.obj left) (.obj right) := by rw [← isLeft, ← isRight]; rfl
  have ordered := b.ordered
  rw [isRight] at ordered
  cases ordered with
  | obj sorted _ =>
    refine ⟨mergeFields left right, ?_, union_mergeFields sorted⟩
    rw [merged, deepMerge]

end FlowRulZ.Json
