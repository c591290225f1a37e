import Mathlib.Data.List.Basic

/-! # Items of a list

The places at which an item stands in a list are those in a shorter list, and one more.
-/

open List

namespace Splits

variable {α : Type*} {items : List α} {a x : α}

section

variable {P : List α → List α → Prop}

theorem at_cons : (∃ before after, a :: items = before ++ x :: after ∧ P before after) ↔
    a = x ∧ P [] items ∨ ∃ before after, items = before ++ x :: after ∧ P (a :: before) after := by
  constructor
  · rintro ⟨_ | ⟨b, before⟩, after, split, here⟩
    · cases split
      exact .inl ⟨rfl, here⟩
    · cases split
      exact .inr ⟨before, after, rfl, here⟩
  · rintro (⟨rfl, here⟩ | ⟨before, after, rfl, here⟩)
    · exact ⟨[], items, rfl, here⟩
    · exact ⟨a :: before, after, rfl, here⟩

theorem at_concat : (∃ before after, items ++ [a] = before ++ x :: after ∧ P before after) ↔
    a = x ∧ P items [] ∨ ∃ before after, items = before ++ x :: after ∧ P before (after ++ [a]) := by
  constructor
  · rintro ⟨before, after, split, here⟩
    rcases after.eq_nil_or_concat' with rfl | ⟨after, last, rfl⟩
    · obtain ⟨rfl, same⟩ := append_inj' split rfl
      exact .inl ⟨singleton_inj.mp same, here⟩
    · rw [← cons_append, ← append_assoc] at split
      obtain ⟨rfl, same⟩ := append_inj' split rfl
      cases same
      exact .inr ⟨before, after, rfl, here⟩
  · rintro (⟨rfl, here⟩ | ⟨before, after, rfl, here⟩)
    · exact ⟨items, [], rfl, here⟩
    · exact ⟨before, after ++ [a], by simp, here⟩

end

variable {P : List α → α → List α → Prop}

theorem exists_cons : (∃ before x after, a :: items = before ++ x :: after ∧ P before x after) ↔
    P [] a items ∨ ∃ before x after, items = before ++ x :: after ∧ P (a :: before) x after := by
  rw [exists_comm, exists_comm (α := List α)]
  simp only [at_cons, exists_or, exists_eq_left']

theorem exists_concat : (∃ before x after, items ++ [a] = before ++ x :: after ∧ P before x after) ↔
    P items a [] ∨ ∃ before x after, items = before ++ x :: after ∧ P before x (after ++ [a]) := by
  rw [exists_comm, exists_comm (α := List α)]
  simp only [at_concat, exists_or, exists_eq_left']

theorem forall_cons : (∀ before x after, a :: items = before ++ x :: after → P before x after) ↔
    P [] a items ∧ ∀ before x after, items = before ++ x :: after → P (a :: before) x after := by
  simpa using not_congr (exists_cons (P := fun before x after => ¬ P before x after))

theorem forall_concat : (∀ before x after, items ++ [a] = before ++ x :: after → P before x after) ↔
    P items a [] ∧ ∀ before x after, items = before ++ x :: after → P before x (after ++ [a]) := by
  simpa using not_congr (exists_concat (P := fun before x after => ¬ P before x after))

end Splits
