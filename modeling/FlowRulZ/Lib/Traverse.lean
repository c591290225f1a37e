import FlowRulZ.Lib.Splits
import Mathlib.Data.List.Forall2

/-! # Partial maps over lists

A list is mapped by a partial function if the function is defined on every item.
-/

namespace Traverse

open List

variable {α β : Type} {f : α → Option β}

theorem mapM_eq_none (items : List α) : items.mapM f = none ↔ ∃ item ∈ items, f item = none := by
  induction items with
  | nil => simp
  | cons item items ih =>
    rw [mapM_cons]
    cases here : f item <;> cases rest : items.mapM f <;> simp [here, ← ih, rest]

theorem mapM_eq_some (items : List α) : ∀ values, items.mapM f = some values → values.map some = items.map f := by
  induction items with
  | nil => simp
  | cons item items ih =>
    intro values h
    obtain ⟨value, here, more, rest, rfl⟩ : ∃ value, f item = some value ∧
        ∃ more, items.mapM f = some more ∧ value :: more = values := by simpa [Option.bind_eq_some_iff] using h
    rw [map_cons, map_cons, here, ih more rest]

variable {items : List α} {values : List β}

theorem of_mem_mapM (mapped : items.mapM f = some values) {value : β}
    (there : value ∈ values) : ∃ item ∈ items, f item = some value := by
  have listed : some value ∈ items.map f := by
    rw [← mapM_eq_some items values mapped]
    exact mem_map_of_mem there
  exact mem_map.mp listed

theorem mem_mapM (mapped : items.mapM f = some values) {item : α}
    (there : item ∈ items) : ∃ value ∈ values, f item = some value := by
  have listed : f item ∈ values.map some := by
    rw [mapM_eq_some items values mapped]
    exact mem_map_of_mem there
  obtain ⟨value, member, same⟩ := mem_map.mp listed
  exact ⟨value, member, same.symm⟩

theorem map_mapM {γ : Type} {g : β → γ} {h : α → γ} (same : ∀ item value, f item = some value → g value = h item)
    (items : List α) : ∀ values, items.mapM f = some values → values.map g = items.map h := by
  intro values defined
  have mapped := mapM_eq_some items values defined
  rw [← List.forall₂_eq_eq_eq, List.forall₂_map_left_iff, List.forall₂_map_right_iff] at mapped ⊢
  exact mapped.imp fun value item here => same item value here.symm

theorem bind_eq_error {ε : Type} {x : Except ε α} {f : α → Except ε β} {e : ε} :
    (x >>= f) = .error e ↔ x = .error e ∨ ∃ a, x = .ok a ∧ f a = .error e := by
  cases x <;> simp [bind, Except.bind]

theorem map_eq_error {ε : Type} {f : α → β} {x : Except ε α} {e : ε} : x.map f = .error e ↔ x = .error e := by
  cases x <;> simp [Except.map]

/-- All values at once. -/
theorem mapM_eq_ok_iff {ε : Type} {f : α → Except ε β} (items : List α) (values : List β) :
    items.mapM f = .ok values ↔ items.map (fun item => (f item).toOption) = values.map some := by
  induction items generalizing values with
  | nil => cases values <;> simp [pure, Except.pure]
  | cons item items ih =>
    cases values with
    | nil =>
      rw [mapM_cons]
      cases f item <;> cases items.mapM f <;> simp [bind, Except.bind, pure, Except.pure]
    | cons value values =>
      rw [mapM_cons, map_cons, map_cons, List.cons.injEq, ← ih]
      cases f item <;> cases items.mapM f <;> simp [bind, Except.bind, pure, Except.pure, Except.toOption]

theorem toOption_eq_some {ε : Type} {x : Except ε α} {a : α} : x.toOption = some a ↔ x = .ok a := by
  cases x <;> simp [Except.toOption]

theorem mapM_eq_ok {ε : Type} {f : α → Except ε β} (items : List α) {values : List β} (mapped : items.mapM f = .ok values) :
    List.Forall₂ (fun value item => f item = .ok value) values items := by
  have same := ((mapM_eq_ok_iff items values).mp mapped).symm
  rw [← List.forall₂_eq_eq_eq, List.forall₂_map_left_iff, List.forall₂_map_right_iff] at same
  exact same.imp fun value item here => toOption_eq_some.mp here.symm

theorem ok_of_mem_mapM {ε : Type} {f : α → Except ε β} {item : α}
    (mapped : items.mapM f = .ok values) (member : item ∈ items) : ∃ value, f item = .ok value := by
  have listed : (f item).toOption ∈ values.map some := by
    rw [← (mapM_eq_ok_iff items values).mp mapped]
    exact mem_map_of_mem member
  obtain ⟨value, -, same⟩ := mem_map.mp listed
  exact ⟨value, toOption_eq_some.mp same.symm⟩

theorem mapM_congr {ε : Type} {f g : α → Except ε β}
    (same : ∀ item ∈ items, f item = g item) : items.mapM f = items.mapM g := by
  induction items with
  | nil => rfl
  | cons item items ih =>
    have later : items.mapM f = items.mapM g := ih fun item later => same item (mem_cons_of_mem _ later)
    rw [mapM_cons, mapM_cons, same item mem_cons_self, later]

theorem mapM_eq_error {ε : Type} {f : α → Except ε β} {e : ε} (items : List α) : items.mapM f = .error e ↔
    ∃ before item after, items = before ++ item :: after ∧ (∀ item ∈ before, ∃ value, f item = .ok value) ∧
      f item = .error e := by
  induction items with
  | nil => simp [pure, Except.pure]
  | cons item items ih =>
    rw [mapM_cons, Splits.exists_cons, bind_eq_error]
    cases here : f item with
    | error e' => simp [here]
    | ok value => simp [here, ih, bind_eq_error, pure, Except.pure]

end Traverse
