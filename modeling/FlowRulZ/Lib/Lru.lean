import FlowRulZ.Lib.Component
import Mathlib.Data.List.Nodup
import Mathlib.Data.List.Induction

/-! # Least recently used

A bounded set of keys, each with the time of its last use.  The key that was used last is in
front, so the last one is the one that has not been used for longest; it goes when a new key
needs room.
-/

namespace Lru

open List

variable {α τ : Type*} {history : List α} {key other : α}

/-- A key was used after the last use of another one. -/
def UsedAfter (history : List α) (key other : α) : Prop :=
  ∃ earlier later, history = earlier ++ key :: later ∧ other ∉ key :: later

theorem UsedAfter.concat {last : α} (after : UsedAfter history key other) (apart : other ≠ last) :
    UsedAfter (history ++ [last]) key other := by
  obtain ⟨earlier, later, rfl, unused⟩ := after
  refine ⟨earlier, later ++ [last], by simp, ?_⟩
  rw [← cons_append, mem_append, mem_singleton, not_or]
  exact ⟨unused, apart⟩

theorem usedAfter_concat (history : List α) (apart : other ≠ key) : UsedAfter (history ++ [key]) key other :=
  ⟨history, [], rfl, by simpa using apart⟩

def keys (kept : List (α × τ)) : List α := kept.map Prod.fst

/-- The keys are in the order of their last uses, and there is room for them. -/
structure Ordered (capacity : Nat) (history : List α) (kept : List (α × τ)) : Prop where
  recent : (keys kept).Pairwise (UsedAfter history)
  room : kept.length ≤ capacity

section

variable {capacity : Nat} {kept fewer : List (α × τ)}

theorem Ordered.sublist (ordered : Ordered capacity history kept) (part : fewer.Sublist kept) :
    Ordered capacity history fewer where
  recent := ordered.recent.sublist (part.map Prod.fst)
  room := Nat.le_trans part.length_le ordered.room

theorem Ordered.last {newer : List α} {oldest : α} (ordered : Ordered capacity history kept)
    (split : keys kept = newer ++ [oldest]) : ∀ other ∈ newer, UsedAfter history other oldest := by
  intro other there
  have recent := ordered.recent
  rw [split, pairwise_append] at recent
  exact recent.2.2 other there oldest mem_cons_self

end

/-- Different keys that were used, other than a given one. -/
structure Others (key : α) (used others : List α) : Prop where
  nodup : others.Nodup
  used : ∀ other ∈ others, other ∈ used ∧ other ≠ key

section

variable {used others : List α}

theorem Others.sublist {fewer : List α} (differ : Others key used others) (part : fewer.Sublist others) :
    Others key used fewer :=
  ⟨differ.nodup.sublist part, fun first there => differ.used first (part.subset there)⟩

theorem Others.append (differ : Others key used others) (more : List α) : Others key (used ++ more) others :=
  ⟨differ.nodup, fun first there => (differ.used first there).imp_left (mem_append_left more)⟩

theorem Others.cons (differ : Others key used others) (apart : other ≠ key) (new : other ∉ others) :
    Others key (used ++ [other]) (other :: others) := by
  refine ⟨nodup_cons.mpr ⟨new, differ.nodup⟩, ?_⟩
  rintro first (_ | ⟨_, there⟩)
  · exact ⟨by simp, apart⟩
  · exact (differ.append _).used first there

end

variable [DecidableEq α]

/-- A key is used at a time. A new key may need the room of the last one. -/
def use (capacity : Nat) (key : α) (now : τ) (kept : List (α × τ)) : List (α × τ) :=
  (key, now) ::
    if key ∈ keys kept then kept.filter (·.1 ≠ key)
    else if capacity ≤ kept.length then kept.dropLast
    else kept

inductive Op (α τ : Type*) where
  | use (key : α) (now : τ)
  /-- Keys whose last use is too old are forgotten. -/
  | forget (old : τ → Bool)
  | clear

def set (capacity : Nat) : Component (List (α × τ)) (Op α τ) Unit where
  handle kept
    | .use key now => (use capacity key now kept, [])
    | .forget old => (kept.filter fun entry => !old entry.2, [])
    | .clear => ([], [])

def uses (ops : List (Op α τ)) : List α :=
  ops.filterMap fun op => match op with
    | .use key _ => some key
    | .forget _ | .clear => none

variable {capacity : Nat} {kept : List (α × τ)}

theorem use_eq_cons (room : kept.length ≤ capacity) (positive : 0 < capacity) (key : α) (now : τ) :
    ∃ rest, use capacity key now kept = (key, now) :: rest ∧ rest.Sublist kept ∧ key ∉ keys rest ∧
      rest.length < capacity := by
  refine ⟨_, rfl, ?_⟩
  split_ifs with there full
  · refine ⟨filter_sublist, by simp [keys], ?_⟩
    obtain ⟨entry, listed, rfl⟩ := mem_map.mp there
    have fewer : (kept.filter (·.1 ≠ entry.1)).length < kept.length :=
      length_filter_lt_length_iff_exists.mpr ⟨entry, listed, by simp⟩
    omega
  · have part := dropLast_sublist kept
    refine ⟨part, fun left => there ((part.map Prod.fst).subset left), ?_⟩
    rw [length_dropLast]
    omega
  · exact ⟨List.Sublist.refl kept, there, by omega⟩

theorem Ordered.use (ordered : Ordered capacity history kept) (positive : 0 < capacity) (key : α) (now : τ) :
    Ordered capacity (history ++ [key]) (use capacity key now kept) := by
  obtain ⟨rest, used, part, new, room⟩ := use_eq_cons ordered.room positive key now
  have older := (ordered.sublist part).recent
  rw [used]
  constructor
  · apply List.Pairwise.cons
    · intro other there
      apply usedAfter_concat
      rintro rfl
      exact new there
    · apply older.imp_of_mem
      intro a b _ there after
      apply after.concat
      rintro rfl
      exact new there
  · rw [length_cons]
    omega

theorem use_full (full : capacity ≤ kept.length) (positive : 0 < capacity) (new : key ∉ keys kept) (now : τ) :
    ∃ newer oldest, keys kept = newer ++ [oldest] ∧ keys (use capacity key now kept) = key :: newer := by
  rcases eq_nil_or_concat' kept with rfl | ⟨front, last, rfl⟩
  · rw [length_nil] at full
    omega
  · refine ⟨keys front, last.1, by simp [keys], ?_⟩
    rw [use, if_neg new, if_pos full, dropLast_concat]
    rfl

/-- After any operations the keys are in the order of their last uses. -/
theorem ordered_after (positive : 0 < capacity) (ops : List (Op α τ)) :
    Ordered capacity (uses ops) ((set capacity).after [] ops) := by
  induction ops using List.reverseRecOn with
  | nil => exact ⟨List.Pairwise.nil, Nat.zero_le _⟩
  | append_singleton ops op ih =>
    rw [Component.after_concat, uses, filterMap_append]
    cases op with
    | use key now => exact ih.use positive key now
    | forget old =>
      rw [filterMap_cons_none rfl, filterMap_nil, append_nil]
      exact ih.sublist filter_sublist
    | clear =>
      rw [filterMap_cons_none rfl, filterMap_nil, append_nil]
      exact ih.sublist (nil_sublist _)

variable {now : τ}

/-- When a key was used last, by some operations after it was used at a time. -/
def lastUse (key : α) (now : τ) (ops : List (Op α τ)) : τ :=
  ops.foldl (fun time op => match op with
    | .use other later => if other = key then later else time
    | .forget _ | .clear => time) now

/-- Why a key may be gone: its last use was too old, or other keys needed all the room. -/
def Gone (capacity : Nat) (key : α) (now : τ) (ops : List (Op α τ)) : Prop :=
  (∃ earlier old since, ops = earlier ++ .forget old :: since ∧ old (lastUse key now earlier) = true) ∨
    ∃ others, Others key (uses ops) others ∧ capacity ≤ others.length

/-- A key is kept, behind others that were used since. -/
def Behind (key : α) (time : τ) (used : List α) (kept : List (α × τ)) : Prop :=
  ∃ newer older, kept = newer ++ (key, time) :: older ∧ Others key used (keys newer)

omit [DecidableEq α] in
theorem Behind.mem {time : τ} {used : List α} (behind : Behind key time used kept) : key ∈ keys kept := by
  obtain ⟨newer, older, rfl, -⟩ := behind
  simp [keys]

theorem Behind.use {time : τ} {used : List α} (behind : Behind key time used kept) (later : τ) :
    (∃ others, Others key (used ++ [other]) others ∧ capacity ≤ others.length) ∨
      Behind key (if other = key then later else time) (used ++ [other]) (use capacity other later kept) := by
  obtain ⟨newer, older, rfl, differ⟩ := behind
  by_cases same : other = key
  · subst same
    exact .inr ⟨[], _, by rw [Lru.use, if_pos rfl]; rfl, nodup_nil, nofun⟩
  rw [if_neg same, Lru.use]
  split_ifs with there full
  · have part : (keys (newer.filter (·.1 ≠ other))).Sublist (keys newer) := filter_sublist.map _
    refine .inr ⟨(other, later) :: newer.filter (·.1 ≠ other), older.filter (·.1 ≠ other), ?_, ?_⟩
    · simp [Ne.symm same]
    · exact (differ.sublist part).cons same (by simp [keys])
  · have new := differ.cons same fun old => there (by simp_all [keys])
    rcases eq_nil_or_concat' older with rfl | ⟨older, last, rfl⟩
    · refine .inl ⟨_, new, ?_⟩
      simpa [keys] using full
    · refine .inr ⟨(other, later) :: newer, older, ?_, new⟩
      rw [← cons_append, ← append_assoc, dropLast_concat]
      simp
  · exact .inr ⟨(other, later) :: newer, older, rfl, differ.cons same fun old => there (by simp_all [keys])⟩

/-- A key is there until its last use is too old, or as many other keys were used as there is room for. -/
theorem behind_or_gone (kept : List (α × τ)) (ops : List (Op α τ)) (uncleared : .clear ∉ ops) :
    Gone capacity key now ops ∨
      Behind key (lastUse key now ops) (uses ops) ((set capacity).after (use capacity key now kept) ops) := by
  induction ops using List.reverseRecOn with
  | nil => exact .inr ⟨[], _, rfl, nodup_nil, nofun⟩
  | append_singleton ops op ih =>
    have grown : uses (ops ++ [op]) = uses ops ++ uses [op] := filterMap_append
    have last : lastUse key now (ops ++ [op]) = lastUse key (lastUse key now ops) [op] := foldl_append
    rw [Component.after_concat, last, grown]
    rcases ih fun old => uncleared (mem_append_left _ old) with
      (⟨earlier, old, since, rfl, late⟩ | ⟨others, differ, full⟩) | behind
    · exact .inl (.inl ⟨earlier, old, since ++ [op], by simp, late⟩)
    · exact .inl (.inr ⟨others, grown ▸ differ.append _, full⟩)
    cases op with
    | use other later => exact (behind.use later).imp_left fun full => .inr (grown ▸ full)
    | forget old =>
      obtain ⟨newer, older, split, differ⟩ := behind
      cases late : old (lastUse key now ops) with
      | true => exact .inl (.inl ⟨ops, old, [], rfl, late⟩)
      | false =>
        refine .inr ⟨newer.filter fun entry => !old entry.2, older.filter fun entry => !old entry.2, ?_, ?_⟩
        · have same : lastUse key (lastUse key now ops) [.forget old] = lastUse key now ops := rfl
          rw [split, same]
          simp [set, late]
        · exact (differ.sublist (filter_sublist.map _)).append _
    | clear => simp at uncleared

end Lru
