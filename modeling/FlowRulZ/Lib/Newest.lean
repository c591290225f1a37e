import FlowRulZ.Lib.Splits
import Mathlib.Data.List.Induction
import Mathlib.Order.Lattice

/-! # Keeping the newest

Items have a rank.  Of the items that come one after the other the one with the highest rank is
kept, and of several with that rank the first.
-/

open List

namespace Newest

variable {α κ : Type*} [LinearOrder κ] (rank : α → κ)

def keep : Option α → α → Option α
  | none, item => some item
  | some kept, item => if rank kept < rank item then some item else some kept

def newest (items : List α) : Option α := items.foldl (keep rank) none

variable {rank} {items items' : List α} {item kept : α}

@[simp]
theorem newest_nil : newest rank [] = none := rfl

theorem newest_append (items more : List α) :
    newest rank (items ++ more) = more.foldl (keep rank) (newest rank items) :=
  foldl_append

@[simp]
theorem newest_concat (items : List α) (item : α) :
    newest rank (items ++ [item]) = keep rank (newest rank items) item :=
  newest_append items [item]

variable (rank) in
theorem exists_newest (member : item ∈ items) : ∃ kept, newest rank items = some kept := by
  induction items using List.reverseRecOn with
  | nil => cases member
  | append_singleton items last ih =>
    rw [newest_concat]
    cases newest rank items with
    | none => exact ⟨last, rfl⟩
    | some old =>
      rw [keep]
      split
      · exact ⟨last, rfl⟩
      · exact ⟨old, rfl⟩

/-- The kept item has a higher rank than all before it, and no lower rank than those after it. -/
theorem newest_eq_some : newest rank items = some kept ↔ ∃ before after, items = before ++ kept :: after ∧
    (∀ item ∈ before, rank item < rank kept) ∧ ∀ item ∈ after, rank item ≤ rank kept := by
  induction items using List.reverseRecOn generalizing kept with
  | nil => simp
  | append_singleton items last ih =>
    have old : (∃ before after, items = before ++ kept :: after ∧ (∀ item ∈ before, rank item < rank kept) ∧
        ∀ item ∈ after ++ [last], rank item ≤ rank kept) ↔ newest rank items = some kept ∧ rank last ≤ rank kept := by
      grind
    rw [newest_concat, Splits.at_concat]
    cases first : newest rank items with
    | none =>
      have empty : items = [] := by
        rw [eq_nil_iff_forall_not_mem]
        intro item member
        obtain ⟨kept, there⟩ := exists_newest rank member
        rw [first] at there
        cases there
      simp [keep, empty]
    | some old =>
      rw [keep]
      split
      · grind
      · grind

theorem mem_of_newest (found : newest rank items = some kept) : kept ∈ items := by
  obtain ⟨before, after, rfl, -⟩ := newest_eq_some.mp found
  simp

theorem rank_le_newest (found : newest rank items = some kept) (member : item ∈ items) : rank item ≤ rank kept := by
  obtain ⟨before, after, rfl, lower, others⟩ := newest_eq_some.mp found
  rcases mem_append.mp member with early | here
  · exact le_of_lt (lower item early)
  · rcases mem_cons.mp here with rfl | late
    · exact le_rfl
    · exact others item late

/-- If items with the same rank are the same, it does not matter in which order and how often they come. -/
theorem newest_congr (same : ∀ item, item ∈ items ↔ item ∈ items')
    (distinct : ∀ item ∈ items, ∀ other ∈ items, rank item = rank other → item = other) :
    newest rank items = newest rank items' := by
  cases found : newest rank items with
  | none =>
    cases other : newest rank items' with
    | none => rfl
    | some kept =>
      obtain ⟨kept', there⟩ := exists_newest rank ((same kept).mpr (mem_of_newest other))
      rw [found] at there
      cases there
  | some kept =>
    have member := mem_of_newest found
    obtain ⟨kept', there⟩ := exists_newest rank ((same kept).mp member)
    have member' := (same kept').mpr (mem_of_newest there)
    have ranks : rank kept = rank kept' :=
      le_antisymm (rank_le_newest there ((same kept).mp member)) (rank_le_newest found member')
    rw [there, distinct kept member kept' member' ranks]

end Newest
