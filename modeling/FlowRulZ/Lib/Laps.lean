import Mathlib.Data.List.Chain
import Mathlib.Data.Nat.Init

/-! # Laps

A list of positions is in laps if each position is followed by a higher one, except that some
positions may be followed by any.  Those end a lap: within a lap no position comes twice, and a
lap is not longer than there are positions.
-/

/-- Each position is followed by a higher one, unless it goes back. -/
def InLaps (back : Nat → Bool) (places : List Nat) : Prop :=
  places.IsChain fun p q => back p = false → p < q

namespace InLaps

open List

variable {back : Nat → Bool} {places : List Nat} {i j p q bound : Nat}

theorem step (inLaps : InLaps back places) (first : places[i]? = some p) (second : places[i + 1]? = some q)
    (onward : back p = false) : p < q := by
  obtain ⟨_, rfl⟩ := List.getElem?_eq_some_iff.mp first
  obtain ⟨inside, rfl⟩ := List.getElem?_eq_some_iff.mp second
  exact inLaps.getElem i inside onward

theorem lt_of_lap (inLaps : InLaps back places) (before : i < j) (first : places[i]? = some p)
    (second : places[j]? = some q) (lap : ∀ k r, i ≤ k → k < j → places[k]? = some r → back r = false) :
    p < q := by
  induction j, before using Nat.le_induction generalizing q with
  | base =>
    exact inLaps.step first second (lap i p (Nat.le_refl i) (Nat.lt_succ_self i) first)
  | succ j later ih =>
    obtain ⟨r, here⟩ : ∃ r, places[j]? = some r := by
      have inside := (List.getElem?_eq_some_iff.mp second).1
      exact ⟨_, List.getElem?_eq_getElem (by omega)⟩
    have upTo := ih here fun k s from_ upTo => lap k s from_ (by omega)
    have last := inLaps.step here second (lap j r (by omega) (Nat.lt_succ_self j) here)
    omega

theorem back_between (inLaps : InLaps back places) (before : i < j) (first : places[i]? = some p)
    (second : places[j]? = some p) :
    ∃ k r, i ≤ k ∧ k < j ∧ places[k]? = some r ∧ back r = true := by
  by_contra none_
  refine Nat.lt_irrefl p (inLaps.lt_of_lap before first second ?_)
  intro k r from_ upTo here
  by_contra marked
  exact none_ ⟨k, r, from_, upTo, here, by simpa using marked⟩

/-- The first lap takes what is left from its first position, every other one at most all. -/
theorem length_le_of_head (inLaps : InLaps back (p :: places)) (below : ∀ q ∈ p :: places, q < bound) :
    (p :: places).length ≤ bound - p + bound * (p :: places).countP back := by
  induction places generalizing p with
  | nil =>
    have inside := below p mem_cons_self
    simp only [length_singleton]
    omega
  | cons q places ih =>
    obtain ⟨step, onward⟩ := isChain_cons_cons.mp inLaps
    have later := ih onward fun r member => below r (mem_cons_of_mem p member)
    have inside := below p mem_cons_self
    rw [length_cons, countP_cons]
    cases marked : back p with
    | false =>
      have up := step marked
      simp only [Bool.false_eq_true, if_false, Nat.add_zero]
      omega
    | true =>
      simp only [if_true, Nat.mul_add]
      omega

theorem length_le (inLaps : InLaps back places) (below : ∀ p ∈ places, p < bound) :
    places.length ≤ bound * (places.countP back + 1) := by
  cases places with
  | nil => exact Nat.zero_le _
  | cons p places =>
    have counted := inLaps.length_le_of_head below
    rw [Nat.mul_add]
    omega

end InLaps
