import FlowRulZ.Executor.Json

/-! # Fields of an object

The map of an object keeps its keys in order.  Then it is known by what it has under each key.
-/

namespace FlowRulZ.Json

open List

theorem exists_fields {object : Json} (isObject : object.isObject = true) : ∃ fields : Fields, object = .obj fields := by
  cases object with
  | obj fields => exact ⟨fields, rfl⟩
  | _ => cases isObject

namespace Fields

variable {key other : String} {value : Json} {fields : Fields}

def Sorted (fields : Fields) : Prop := fields.Pairwise (·.1 < ·.1)

theorem get?_cons (k : String) (v : Json) (fields : Fields) (key : String) :
    get? ((k, v) :: fields) key = if key = k then some v else get? fields key := by
  unfold get?
  by_cases same : key = k
  · simp [same]
  · simp [lookup_cons, beq_eq_false_iff_ne.mpr same, same]

theorem get?_insert (key other : String) (value : Json) (fields : Fields) :
    (insert key value fields).get? other = if other = key then some value else fields.get? other := by
  induction fields with
  | nil => rw [insert, get?_cons]
  | cons field fields ih =>
    obtain ⟨k, v⟩ := field
    by_cases before : key < k
    · rw [insert, if_pos before, get?_cons]
    by_cases same : key = k
    · subst same
      rw [insert, if_neg before, if_pos rfl, get?_cons, get?_cons]
      split_ifs <;> rfl
    · rw [insert, if_neg before, if_neg same, get?_cons, get?_cons, ih]
      split_ifs with here there
      · exact absurd (there.symm.trans here) same
      · rfl
      · rfl
      · rfl

theorem get?_insert_self (key : String) (value : Json) (fields : Fields) :
    (insert key value fields).get? key = some value := by
  rw [get?_insert, if_pos rfl]

theorem get?_insert_other (apart : other ≠ key) (value : Json) (fields : Fields) :
    (insert key value fields).get? other = get? fields other := by
  rw [get?_insert, if_neg apart]

theorem insert_insert (key : String) (old value : Json) (fields : Fields) :
    (fields.insert key old).insert key value = fields.insert key value := by
  induction fields with
  | nil => simp [insert]
  | cons field fields ih =>
    obtain ⟨k, v⟩ := field
    by_cases before : key < k
    · simp [insert, before]
    by_cases same : key = k
    · subst same
      simp [insert]
    · simp [insert, before, same, ih]

theorem mem_of_get? (found : fields.get? key = some value) : (key, value) ∈ fields := by
  obtain ⟨before, after, rfl, -⟩ := lookup_eq_some_iff.mp found
  simp

theorem mem_insert {field : String × Json} (inside : field ∈ insert key value fields) :
    field = (key, value) ∨ field ∈ fields := by
  induction fields with
  | nil => exact .inl (mem_singleton.mp inside)
  | cons first fields ih =>
    unfold insert at inside
    split_ifs at inside
    · exact mem_cons.mp inside
    · rcases mem_cons.mp inside with rfl | later
      · exact .inl rfl
      · exact .inr (mem_cons_of_mem _ later)
    · rcases mem_cons.mp inside with rfl | later
      · exact .inr mem_cons_self
      · exact (ih later).imp_right (mem_cons_of_mem _)

theorem sorted_insert (sorted : fields.Sorted) : (insert key value fields).Sorted := by
  induction fields with
  | nil => exact pairwise_singleton _ _
  | cons first fields ih =>
    obtain ⟨least, sorted⟩ := pairwise_cons.mp sorted
    unfold insert
    split_ifs with before same
    · refine pairwise_cons.mpr ⟨?_, pairwise_cons.mpr ⟨least, sorted⟩⟩
      rintro field inside
      rcases mem_cons.mp inside with rfl | later
      · exact before
      · exact String.lt_trans before (least field later)
    · exact pairwise_cons.mpr ⟨same ▸ least, sorted⟩
    · refine pairwise_cons.mpr ⟨?_, ih sorted⟩
      intro field inside
      rcases mem_insert inside with rfl | later
      · by_contra after
        exact same (String.le_antisymm (String.not_lt.mp after) (String.not_lt.mp before))
      · exact least field later

theorem get?_of_lt (later : ∀ field ∈ fields, key < field.1) : fields.get? key = none := by
  cases found : fields.get? key with
  | none => rfl
  | some value => exact absurd (later _ (mem_of_get? found)) (String.lt_irrefl key)

/-- Fields in order are equal if they have the same under each key. -/
theorem ext {left right : Fields} (sorted : left.Sorted) (sorted' : right.Sorted)
    (same : ∀ key, left.get? key = right.get? key) : left = right := by
  induction left generalizing right with
  | nil =>
    cases right with
    | nil => rfl
    | cons field right =>
      have there := same field.1
      rw [get?_cons, if_pos rfl] at there
      cases there
  | cons field left ih =>
    obtain ⟨k, v⟩ := field
    obtain ⟨least, rest⟩ := pairwise_cons.mp sorted
    cases right with
    | nil =>
      have there := same k
      rw [get?_cons, if_pos rfl] at there
      cases there
    | cons field right =>
      obtain ⟨k', v'⟩ := field
      obtain ⟨least', rest'⟩ := pairwise_cons.mp sorted'
      -- the first keys are equal: the smaller one would be missing on the other side
      have keys : k = k' := by
        by_contra apart
        have first := same k
        have first' := same k'
        rw [get?_cons, if_pos rfl, get?_cons, if_neg apart] at first
        rw [get?_cons, if_neg (Ne.symm apart), get?_cons, if_pos rfl] at first'
        have after : k' < k := least' _ (mem_of_get? first.symm)
        exact String.lt_asymm after (least _ (mem_of_get? first'))
      subst keys
      have values := same k
      rw [get?_cons, if_pos rfl, get?_cons, if_pos rfl] at values
      obtain rfl := Option.some.inj values
      refine congrArg ((k, v) :: ·) (ih rest rest' ?_)
      intro key
      by_cases here : key = k
      · rw [here, get?_of_lt least, get?_of_lt least']
      · have there := same key
        rwa [get?_cons, if_neg here, get?_cons, if_neg here] at there

end Fields

end FlowRulZ.Json
