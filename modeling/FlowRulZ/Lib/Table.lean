import Mathlib.Data.List.AList

/-! # Tables

What is found in an association list whose values all have one type, after one of its entries
has changed, or when all of them are alike; and in a list by its positions, after one of them
has changed.
-/

namespace Table

variable {α β : Type} [DecidableEq α] {table : AList fun _ : α => β} {key key' : α} {value value' : β}

@[grind =]
theorem lookup_insert :
    (table.insert key value).lookup key' = if key' = key then some value else table.lookup key' := by
  split
  next here => rw [here, AList.lookup_insert]
  next other => exact AList.lookup_insert_ne other

@[grind =]
theorem lookup_erase : (table.erase key).lookup key' = if key' = key then none else table.lookup key' := by
  split
  next here => rw [here, AList.lookup_erase]
  next other => exact AList.lookup_erase_ne other

theorem of_insert (found : (table.insert key value).lookup key' = some value') :
    key' = key ∧ value' = value ∨ key' ≠ key ∧ table.lookup key' = some value' := by
  grind

theorem of_erase (found : (table.erase key).lookup key' = some value') :
    key' ≠ key ∧ table.lookup key' = some value' := by
  grind

theorem lookup_map_const (names : List α) (name : α) (value : β) :
    (names.map fun other => (other, value)).lookup name = if name ∈ names then some value else none := by
  induction names with
  | nil => rfl
  | cons first names ih =>
    rw [List.map_cons, List.lookup_cons]
    by_cases same : name = first
    · simp [same]
    · rw [beq_false_of_ne same, ih]
      simp [same]

section

omit [DecidableEq α]

variable {items more : List α} {i k : Nat} {item item' found : α}

theorem of_set (there : (items.set i item)[k]? = some found) :
    k = i ∧ found = item ∨ k ≠ i ∧ items[k]? = some found := by
  grind

theorem after_set (here : items[i]? = some item) (there : items[k]? = some found) :
    k = i ∧ found = item ∧ (∀ new, (items.set i new)[k]? = some new) ∨
      k ≠ i ∧ ∀ new, (items.set i new)[k]? = some found := by
  grind

theorem of_concat (there : (items ++ [item])[k]? = some found) :
    items[k]? = some found ∨ k = items.length ∧ found = item := by
  grind

theorem lt_length (there : items[i]? = some item) : i < items.length :=
  (List.getElem?_eq_some_iff.mp there).1

theorem set_self (there : items[i]? = some item) : (items.set i item')[i]? = some item' :=
  List.getElem?_set_self (lt_length there)

theorem append_left (there : items[i]? = some item) : (items ++ more)[i]? = some item :=
  (List.getElem?_append_left (lt_length there)).trans there

end

end Table
