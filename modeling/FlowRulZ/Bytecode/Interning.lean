import FlowRulZ.Bytecode.Plan
import FlowRulZ.Lib.Component
import FlowRulZ.Lib.Table
import Mathlib.Data.List.Dedup

/-! # Interned strings

The tables of a plan give each string its position as a number.  The table of the process has a counter for
that, and can be filled with strings that it does not look up first.  All numbers have 16 bits.
-/

namespace FlowRulZ

open List

theorem mem_addAll {names : List String} {s : String} : s ∈ (Interner.empty.addAll names).1.entries ↔ s ∈ names := by
  rw [Interner.addAll_entries, Interner.mem_firstUses]
  exact or_iff_right not_mem_nil

theorem length_addAll (names : List String) : (Interner.empty.addAll names).1.entries.length = names.dedup.length :=
  ((perm_ext_iff_of_nodup (Interner.empty.addAll names).1.nodup names.nodup_dedup).mpr fun _ =>
    mem_addAll.trans mem_dedup.symm).length_eq

theorem mem_given {names : List String} {s : String} {id : UInt16} :
    (s, id) ∈ names.zip (Interner.empty.addAll names).2 ↔
      s ∈ names ∧ id = UInt16.ofNat ((Interner.empty.addAll names).1.entries.idxOf s) := by
  rw [show names.zip _ = _ from congrArg (names.zip ·) (Interner.addAll_ids names Interner.empty),
    ← map_prod_left_eq_zip, mem_map]
  constructor
  · rintro ⟨s, added, ⟨⟩⟩
    exact ⟨added, rfl⟩
  · rintro ⟨added, rfl⟩
    exact ⟨s, added, rfl⟩

/-- A string that was added keeps the number it got, and no other string has it, as long as there are numbers. -/
theorem addAll_faithful (names : List String) :
    let table := (Interner.empty.addAll names).1
    let given := names.zip (Interner.empty.addAll names).2
    ((∀ s id, (s, id) ∈ given → ConstantPool.get? table id = some s ∧ ServiceTable.get? table id = some ⟨id, s⟩ ∧
        table.add s = (table, id)) ∧
      ∀ s id s' id', (s, id) ∈ given → (s', id') ∈ given → (id = id' ↔ s = s')) ↔
    names.dedup.length ≤ 2 ^ 16 := by
  intro table given
  have count : table.entries.length = names.dedup.length := length_addAll names
  constructor
  · rintro ⟨-, apart⟩
    by_contra many
    have last : 2 ^ 16 < table.entries.length := by omega
    have first : 0 < table.entries.length := by omega
    have numbered (i : Nat) (inside : i < table.entries.length) : (table.entries[i], UInt16.ofNat i) ∈ given := by
      refine mem_given.mpr ⟨mem_addAll.mp (getElem_mem inside), ?_⟩
      rw [table.nodup.idxOf_getElem i inside]
    have same := (apart _ _ _ _ (numbered 0 first) (numbered (2 ^ 16) last)).mp rfl
    exact absurd ((table.nodup.getElem_inj_iff).mp same) (by decide)
  · intro few
    have inside : ∀ s id, (s, id) ∈ given →
        s ∈ table.entries ∧ id = UInt16.ofNat (table.entries.idxOf s) ∧ table.entries[id.toNat]? = some s := by
      intro s id member
      obtain ⟨added, rfl⟩ := mem_given.mp member
      have known : s ∈ table.entries := mem_addAll.mpr added
      have before := idxOf_lt_length_of_mem known
      have fits : table.entries.idxOf s < 2 ^ 16 := by omega
      refine ⟨known, rfl, ?_⟩
      rw [UInt16.toNat_ofNat_of_lt' fits, getElem?_eq_getElem before, getElem_idxOf before]
    constructor
    · intro s id member
      obtain ⟨known, number, found⟩ := inside s id member
      refine ⟨found, ?_, ?_⟩
      · rw [ServiceTable.get?, ServiceTable.rows_getElem?, found, Option.map_some, UInt16.ofNat_toNat]
      · rw [table.add_of_mem known, number]
    · intro s id s' id' member member'
      obtain ⟨-, number, found⟩ := inside s id member
      obtain ⟨-, number', found'⟩ := inside s' id' member'
      constructor
      · rintro rfl
        exact Option.some.inj (found.symm.trans found')
      · rintro rfl
        rw [number, number']

theorem add_full {names : List String} {first s : String} (full : names.length = 2 ^ 16)
    (distinct : (names ++ [s]).Nodup) (starts : names.head? = some first) :
    let table := (Interner.empty.addAll names).1
    table.add first = (table, 0) ∧ (table.add s).2 = 0 := by
  obtain ⟨rest, rfl⟩ := head?_eq_some_iff.mp starts
  intro table
  obtain ⟨single, -, apart⟩ := nodup_append.mp distinct
  have entries : table.entries = Interner.firstUses [] (first :: rest) := Interner.addAll_entries (first :: rest) _
  obtain ⟨more, begins⟩ : [first] <+: table.entries := entries ▸ Interner.prefix_firstUses rest [first]
  have length : table.entries.length = 2 ^ 16 := by
    rw [length_addAll, single.dedup, full]
  have unknown : s ∉ table.entries := fun known => apart s (mem_addAll.mp known) s mem_cons_self rfl
  constructor
  · rw [table.add_of_mem (mem_addAll.mpr mem_cons_self), ← begins, singleton_append, idxOf_cons_self]
    rfl
  · rw [table.add_of_not_mem unknown, length]
    rfl

/-- The last of 65537 distinct strings gets the number of the first. -/
theorem addAll_wraps :
    let word (n : Nat) := String.ofList (List.replicate n 'a')
    let names := (List.range (2 ^ 16)).map word
    let table := (Interner.empty.addAll names).1
    word 0 ≠ word (2 ^ 16) ∧ table.add (word 0) = (table, 0) ∧ (table.add (word (2 ^ 16))).2 = 0 := by
  intro word names table
  have injective : Function.Injective word := by
    intro m n same
    simpa using congrArg List.length (String.ofList_injective same)
  have distinct : (names ++ [word (2 ^ 16)]).Nodup := by
    rw [← map_singleton, ← map_append, ← range_succ]
    exact nodup_range.map injective
  have length : names.length = 2 ^ 16 := by rw [length_map, length_range]
  have starts : names.head? = some (word 0) := by
    rw [head?_map, head?_range]
    rfl
  exact ⟨fun same => absurd (injective same) (by decide), add_full length distinct starts⟩

structure InternTable where
  fwd : AList fun _ : String => UInt16 := ∅
  rev : List String := []
  next : UInt16 := 0

namespace InternTable

/-- A string gets the next number, which wraps. -/
def push (t : InternTable) (s : String) : InternTable :=
  { fwd := t.fwd.insert s t.next, rev := t.rev ++ [s], next := t.next + 1 }

def prefill (t : InternTable) (strings : List String) : InternTable := strings.foldl push t

def intern (t : InternTable) (s : String) : InternTable × UInt16 :=
  match t.fwd.lookup s with
  | some id => (t, id)
  | none => (t.push s, t.next)

def lookup (t : InternTable) (id : UInt16) : Option String := t.rev[id.toNat]?

inductive Request where
  | prefill (strings : List String)
  | intern (s : String)

/-- Requests in the order in which they get the lock; what `intern` returns is shown with its argument. -/
def requests : Component InternTable Request (String × UInt16) where
  handle t
    | .prefill strings => (t.prefill strings, [])
    | .intern s => ((t.intern s).1, [(s, (t.intern s).2)])

/-- How many entries requests make: one for every prefilled string, and for an interned one that is not known. -/
def entriesMade (known : List String) : List Request → Nat
  | [] => 0
  | .prefill strings :: rest => strings.length + entriesMade (known ++ strings) rest
  | .intern s :: rest => (if s ∈ known then 0 else 1) + entriesMade (s :: known) rest

/-- The counter is the number of strings, and a number leads back to its string while they are few. -/
structure Synced (t : InternTable) : Prop where
  next : t.next = UInt16.ofNat t.rev.length
  back : t.rev.length ≤ 2 ^ 16 → ∀ s id, t.fwd.lookup s = some id → t.lookup id = some s

variable {t : InternTable} {s : String}

theorem Synced.push (synced : t.Synced) : (t.push s).Synced := by
  constructor
  · simp [InternTable.push, synced.next]
  · intro few s' id found
    rw [InternTable.push, length_append, length_singleton] at few
    rcases Table.of_insert found with ⟨rfl, rfl⟩ | ⟨-, old⟩
    · rw [lookup, InternTable.push, synced.next, UInt16.toNat_ofNat_of_lt' (show _ < 2 ^ 16 by omega)]
      simp
    · have there := synced.back (by omega) s' id old
      exact Table.append_left there

theorem handle_induction {P : InternTable → Prop} (request : Request) (start : P t)
    (step : ∀ t s, P t → P (t.push s)) : P (requests.handle t request).1 := by
  cases request with
  | prefill strings => exact List.foldlRecOn strings push start fun t now s _ => step t s now
  | intern s =>
    dsimp only [requests, intern]
    split
    · exact start
    · exact step t s start

theorem run_induction {P : InternTable → Prop} (events : List Request) (start : P t)
    (step : ∀ t s, P t → P (t.push s)) : P (requests.after t events) :=
  Component.after_of_invariant start fun _ now => handle_induction _ now step

theorem intern_found (t : InternTable) (s : String) : (t.intern s).1.fwd.lookup s = some (t.intern s).2 := by
  unfold intern
  split
  · assumption
  · exact AList.lookup_insert _

theorem prefix_run (t : InternTable) (events : List Request) : t.rev <+: (requests.after t events).rev :=
  run_induction (P := fun t' => t.rev <+: t'.rev) events prefix_rfl fun _ s now =>
    now.trans (prefix_append _ [s])

theorem prefill_known (strings : List String) : ∀ t : InternTable,
    (t.prefill strings).rev.length = t.rev.length + strings.length ∧
      ∀ s, s ∈ (t.prefill strings).fwd ↔ s ∈ t.fwd ∨ s ∈ strings := by
  induction strings with
  | nil => simp [prefill]
  | cons first strings ih =>
    intro t
    obtain ⟨length, known⟩ := ih (t.push first)
    refine ⟨length.trans ?_, fun s => (known s).trans ?_⟩
    · simp only [push, length_append, length_cons, length_nil]
      omega
    · rw [push, AList.mem_insert, mem_cons]
      tauto

theorem intern_known (t : InternTable) (s : String) :
    (t.intern s).1.rev.length = t.rev.length + (if s ∈ t.fwd then 0 else 1) ∧
      ∀ s', s' ∈ (t.intern s).1.fwd ↔ s' = s ∨ s' ∈ t.fwd := by
  unfold intern
  split <;> rename_i found
  · have known : s ∈ t.fwd := AList.lookup_isSome.mp (by rw [found]; rfl)
    refine ⟨by rw [if_pos known, Nat.add_zero], fun s' => (or_iff_right_of_imp ?_).symm⟩
    rintro rfl
    exact known
  · simp [push, AList.lookup_eq_none.mp found]

theorem length_run (events : List Request) : ∀ (t : InternTable) (known : List String), (∀ s, s ∈ t.fwd ↔ s ∈ known) →
    (requests.after t events).rev.length = t.rev.length + entriesMade known events := by
  induction events with
  | nil => exact fun _ _ _ => rfl
  | cons request events ih =>
    intro t known same
    cases request with
    | prefill strings =>
      obtain ⟨length, more⟩ := prefill_known strings t
      refine (ih (t.prefill strings) (known ++ strings) (by simp [more, same])).trans ?_
      rw [length, entriesMade, Nat.add_assoc]
    | intern s =>
      obtain ⟨length, more⟩ := intern_known t s
      refine (ih (t.intern s).1 (s :: known) (by simp [more, same])).trans ?_
      simp only [length, entriesMade, Nat.add_assoc, same]

/-- A number that was returned leads to its string for ever, so that no other string gets it. -/
theorem run_faithful (events : List Request) (few : entriesMade [] events ≤ 2 ^ 16) :
    (∀ s id, (s, id) ∈ (requests.run {} events).2 → (requests.after {} events).lookup id = some s) ∧
    ∀ s s' id, (s, id) ∈ (requests.run {} events).2 → (s', id) ∈ (requests.run {} events).2 → s = s' := by
  have back : ∀ s id, (s, id) ∈ (requests.run {} events).2 → (requests.after {} events).lookup id = some s := by
    have made := length_run events {} [] (by simp)
    rw [length_nil, Nat.zero_add] at made
    rw [← made] at few
    intro s id member
    obtain ⟨before, request, rest, rfl, out⟩ := requests.mem_run.mp member
    have empty : ({} : InternTable).Synced := ⟨rfl, fun _ s id found => by cases found⟩
    have synced := handle_induction request (run_induction before empty fun _ _ => Synced.push) fun _ _ => Synced.push
    rw [Component.after_append] at few ⊢
    cases request with
    | prefill strings => exact absurd out not_mem_nil
    | intern s' =>
      cases mem_singleton.mp out
      obtain ⟨later, whole⟩ := prefix_run (requests.handle (requests.after {} before) (.intern s)).1 rest
      have there := synced.back ((prefix_run _ rest).length_le.trans few) s _ (intern_found _ s)
      rw [lookup, Component.after, Component.run_cons, ← whole]
      exact Table.append_left there
  refine ⟨back, ?_⟩
  intro s s' id member member'
  exact Option.some.inj ((back s id member).symm.trans (back s' id member'))

theorem run_faithful_repeated : let events := [Request.prefill ["a", "a"], .intern "b", .intern "a"]
    (requests.run {} events).2 = [("b", 2), ("a", 1)] ∧ (requests.after {} events).lookup 1 = some "a" := by
  intro events
  have faithful := run_faithful events (by decide)
  exact ⟨by decide, faithful.1 "a" 1 (by decide)⟩

theorem prefill_replicate (n : Nat) : let t := ({} : InternTable).prefill (List.replicate n "a")
    t.rev = List.replicate n "a" ∧ t.next = UInt16.ofNat n ∧ t.fwd.lookup "b" = none := by
  induction n with
  | zero => exact ⟨rfl, rfl, rfl⟩
  | succ n ih =>
    obtain ⟨rev, next, unknown⟩ := ih
    rw [prefill] at rev next unknown
    rw [prefill, replicate_succ', foldl_concat]
    refine ⟨?_, ?_, ?_⟩
    · rw [push, rev]
    · rw [push, next, UInt16.ofNat_add]
      rfl
    · rw [push, AList.lookup_insert_ne (by decide), unknown]

theorem run_replicate (n : Nat) : let events := [Request.prefill (List.replicate n "a"), .intern "b"]
    (requests.run {} events).2 = [("b", UInt16.ofNat n)] ∧
      (requests.after {} events).rev = List.replicate n "a" ++ ["b"] := by
  obtain ⟨rev, next, unknown⟩ := prefill_replicate n
  dsimp only [Component.run, Component.after, requests]
  rw [intern, unknown, next, push, rev]
  exact ⟨rfl, rfl⟩

/-- After 65536 entries the next string gets a number that leads to another one. -/
theorem run_wraps : let events := [Request.prefill (List.replicate (2 ^ 16) "a"), .intern "b"]
    (requests.run {} events).2 = [("b", 0)] ∧ (requests.after {} events).lookup 0 = some "a" := by
  intro events
  obtain ⟨out, rev⟩ := run_replicate (2 ^ 16)
  have first : 0 < 2 ^ 16 := by decide
  refine ⟨out, ?_⟩
  rw [lookup, rev, getElem?_append_left (by rwa [length_replicate])]
  exact getElem?_replicate_of_lt first

end InternTable

end FlowRulZ
