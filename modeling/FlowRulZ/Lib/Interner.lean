import Mathlib.Data.List.Basic
import Mathlib.Data.List.Nodup
import Mathlib.Data.List.Infix

/-! # Interning tables

A table hands out small numbers for values and remembers which value each number
stands for.  Numbers are 16 bits wide and are taken from the table's length, so a
table with more than `2 ^ 16` values hands out numbers it has used before; nothing
here hides that.
-/

/-- Values in order of first use, with a reverse index. The index is searched by key only, so an association list stands
for it; `synced` says that it holds each value's position, cut to 16 bits. -/
structure Interner (α : Type) [DecidableEq α] where
  entries : List α
  index : List (α × UInt16)
  nodup : entries.Nodup
  synced : ∀ s, index.lookup s =
    if s ∈ entries then some (UInt16.ofNat (entries.idxOf s)) else none

namespace Interner

open List

variable {α : Type} [DecidableEq α]

def empty : Interner α where
  entries := []
  index := []
  nodup := List.nodup_nil
  synced := by simp

theorem lookup_none (t : Interner α) {s : α} : t.index.lookup s = none ↔ s ∉ t.entries := by
  rw [t.synced]
  split <;> simp_all

def push (t : Interner α) (s : α) (fresh : s ∉ t.entries) : Interner α where
  entries := t.entries ++ [s]
  index := (s, UInt16.ofNat t.entries.length) :: t.index
  nodup := by
    rw [← List.concat_eq_append]
    exact t.nodup.concat fresh
  synced := by
    intro s'
    rw [List.lookup_cons]
    by_cases same : s' = s
    · subst same
      simp [List.idxOf_append_of_notMem fresh]
    · have apart : (s' == s) = false := beq_false_of_ne same
      rw [apart, t.synced]
      by_cases inside : s' ∈ t.entries
      · simp [inside, List.idxOf_append_of_mem inside]
      · simp [inside, same]

/-- The number of a value, entering the value first if it is new. -/
def add (t : Interner α) (s : α) : Interner α × UInt16 :=
  match h : t.index.lookup s with
  | some id => (t, id)
  | none => (t.push s (t.lookup_none.mp h), UInt16.ofNat t.entries.length)

section

variable (t : Interner α)

theorem add_of_mem {s : α} (inside : s ∈ t.entries) : t.add s = (t, UInt16.ofNat (t.entries.idxOf s)) := by
  unfold add
  split
  · rename_i id found
    rw [t.synced, if_pos inside] at found
    cases found
    rfl
  · rename_i missing
    exact absurd inside (t.lookup_none.mp missing)

theorem add_of_not_mem {s : α} (fresh : s ∉ t.entries) : t.add s = (t.push s fresh, UInt16.ofNat t.entries.length) := by
  unfold add
  split
  · rename_i id found
    rw [t.lookup_none.mpr fresh] at found
    cases found
  · rfl

theorem add_entries (s : α) : (t.add s).1.entries = if s ∈ t.entries then t.entries else t.entries ++ [s] := by
  split
  · rename_i inside
    rw [t.add_of_mem inside]
  · rename_i fresh
    rw [t.add_of_not_mem fresh]
    rfl

theorem mem_add (s : α) : s ∈ (t.add s).1.entries := by
  rw [add_entries]
  split
  · assumption
  · simp

theorem add_id (s : α) : (t.add s).2 = UInt16.ofNat ((t.add s).1.entries.idxOf s) := by
  by_cases inside : s ∈ t.entries
  · rw [t.add_of_mem inside]
  · rw [t.add_of_not_mem inside]
    simp [push, idxOf_append_of_notMem inside]

end

/-- Enter several values from left to right and collect their numbers. -/
def addAll (t : Interner α) : List α → Interner α × List UInt16
  | [] => (t, [])
  | s :: rest =>
    let tail := (t.add s).1.addAll rest
    (tail.1, (t.add s).2 :: tail.2)

theorem addAll_append (left right : List α) : ∀ t : Interner α, t.addAll (left ++ right) =
    (((t.addAll left).1.addAll right).1, (t.addAll left).2 ++ ((t.addAll left).1.addAll right).2) := by
  induction left with
  | nil => exact fun t => rfl
  | cons s rest ih => intro t; simp [addAll, ih]

theorem addAll_length (names : List α) : ∀ t : Interner α, (t.addAll names).2.length = names.length := by
  induction names with
  | nil => intro t; rfl
  | cons s rest ih => intro t; simp [addAll, ih]

/-- The values of two lists in order of first use, where those of `seen` come first. -/
def firstUses (seen names : List α) : List α :=
  names.foldl (fun seen s => if s ∈ seen then seen else seen ++ [s]) seen

theorem firstUses_append (seen left right : List α) :
    firstUses seen (left ++ right) = firstUses (firstUses seen left) right :=
  foldl_append

theorem prefix_firstUses (names : List α) : ∀ seen : List α, seen <+: firstUses seen names := by
  induction names with
  | nil => exact fun seen => prefix_rfl
  | cons s rest ih =>
    intro seen
    have step : seen <+: if s ∈ seen then seen else seen ++ [s] := by
      split
      · exact prefix_rfl
      · exact prefix_append _ _
    exact step.trans (ih _)

theorem mem_firstUses {s : α} (names : List α) : ∀ seen : List α, s ∈ firstUses seen names ↔ s ∈ seen ∨ s ∈ names := by
  induction names with
  | nil => simp [firstUses]
  | cons name rest ih =>
    intro seen
    have step : s ∈ firstUses seen (name :: rest) ↔
        s ∈ (if name ∈ seen then seen else seen ++ [name]) ∨ s ∈ rest := ih _
    rw [step]
    split_ifs with used
    · grind
    · simp [or_assoc]

theorem nodup_firstUses (names : List α) : ∀ {seen : List α}, seen.Nodup → (firstUses seen names).Nodup := by
  induction names with
  | nil => exact fun distinct => distinct
  | cons name rest ih =>
    intro seen distinct
    apply ih
    dsimp only
    split_ifs with used
    · exact distinct
    · exact concat_eq_append ▸ distinct.concat used

theorem addAll_entries (names : List α) : ∀ t : Interner α, (t.addAll names).1.entries = firstUses t.entries names := by
  induction names with
  | nil => exact fun t => rfl
  | cons s rest ih =>
    intro t
    simp only [addAll, ih, add_entries]
    rfl

theorem idxOf_stable {left right : List α} {s : α} (inside : s ∈ left) (h : left <+: right) :
    right.idxOf s = left.idxOf s := by
  obtain ⟨more, rfl⟩ := h
  exact idxOf_append_of_mem inside

theorem addAll_ids (names : List α) : ∀ t : Interner α, (t.addAll names).2 =
      names.map fun s => UInt16.ofNat ((t.addAll names).1.entries.idxOf s) := by
  induction names with
  | nil => exact fun t => rfl
  | cons s rest ih =>
    intro t
    have grows : (t.add s).1.entries <+: ((t.add s).1.addAll rest).1.entries := by
      rw [addAll_entries]
      exact prefix_firstUses rest _
    rw [addAll, map_cons, ih (t.add s).1, add_id, idxOf_stable (mem_add t s) grows]

theorem addAll_ids_grown {t : Interner α} {names values : List α} (grown : (t.addAll values).1.entries <+: names) :
    (t.addAll values).2 = values.map fun s => UInt16.ofNat (names.idxOf s) := by
  rw [addAll_ids]
  apply map_congr_left
  intro s inside
  have known : s ∈ (t.addAll values).1.entries := by
    rw [addAll_entries]
    exact (mem_firstUses values _).mpr (.inr inside)
  rw [idxOf_stable known grown]

end Interner
