import FlowRulZ.Lib.Component
import Mathlib.Data.List.Count
import Mathlib.Data.List.Nodup

/-! # Ledgers

A stock of items that enter and leave.  What is neither in stock nor has left in a regular
way is lost; if all items are different, then every item is accounted for exactly when
nothing is lost.
-/

namespace Ledger

open List

variable {α : Type*} [DecidableEq α]

/-- What was in stock or entered is in stock, has left or is lost. -/
def Balanced (before entered after left lost : List α) : Prop :=
  ∀ a, after.count a + left.count a + lost.count a = before.count a + entered.count a

namespace Balanced

variable {before before' entered after left lost after' entered' left' lost' : List α}

theorem refl (stock : List α) : Balanced stock [] stock [] [] := by
  intro a
  simp

theorem trans (first : Balanced before entered after left lost) (second : Balanced after entered' after' left' lost') :
    Balanced before (entered ++ entered') after' (left ++ left') (lost ++ lost') := by
  intro a
  have := first a
  have := second a
  simp only [count_append]
  omega

theorem frame (balanced : Balanced before entered after left lost) (others : List α) :
    Balanced (before ++ others) entered (after ++ others) left lost := by
  intro a
  have := balanced a
  simp only [count_append]
  omega

theorem leave (stock : List α) (a : α) : Balanced (stock ++ [a]) [] stock [a] [] := by
  intro b
  simp only [count_append]

theorem lose (stock : List α) (a : α) : Balanced (stock ++ [a]) [] stock [] [a] := by
  intro b
  simp only [count_append]
  omega

theorem of_perm (balanced : Balanced before entered after left lost) (same : before'.Perm before) :
    Balanced before' entered after left lost := by
  intro a
  rw [same.count_eq]
  exact balanced a

/-- Every item is in stock or has left, if and only if none is lost. -/
theorem accounted_iff (balanced : Balanced [] entered after left lost) (distinct : entered.Nodup) :
    (∀ a ∈ entered, a ∈ after ∨ a ∈ left) ↔ lost = [] := by
  constructor
  · intro accounted
    rw [eq_nil_iff_forall_not_mem]
    intro a gone
    have balance := balanced a
    have once := nodup_iff_count_le_one.mp distinct a
    have goneOnce := count_pos_iff.mpr gone
    rw [count_nil] at balance
    have came : a ∈ entered := count_pos_iff.mp (by omega)
    rcases accounted a came with there | left_
    · have thereOnce := count_pos_iff.mpr there
      omega
    · have leftOnce := count_pos_iff.mpr left_
      omega
  · rintro rfl a came
    have balance := balanced a
    have once := count_pos_iff.mpr came
    by_cases there : a ∈ after
    · exact .inl there
    · rw [count_eq_zero_of_not_mem there] at balance
      exact .inr (count_pos_iff.mp (by omega))

end Balanced

/-- A component whose requests are all balanced, and lose nothing if and only if they are regular, loses nothing in a
run if and only if all its requests are. -/
theorem run_balanced {S E O : Type*} (C : Component S E O) (stock : S → List α)
    (entering leaving : O → Option α) {Inv : S → Prop} {Regular : S → E → Prop}
    (step : ∀ s e, Inv s → Inv (C.handle s e).1 ∧
      ∃ lost, Balanced (stock s) ((C.handle s e).2.filterMap entering) (stock (C.handle s e).1)
        ((C.handle s e).2.filterMap leaving) lost ∧ (lost = [] ↔ Regular s e))
    {s : S} (start : Inv s) (events : List E) :
    ∃ lost, Balanced (stock s) ((C.run s events).2.filterMap entering) (stock (C.run s events).1)
      ((C.run s events).2.filterMap leaving) lost ∧ (lost = [] ↔ C.Throughout Regular s events) := by
  induction events generalizing s with
  | nil => exact ⟨[], .refl _, iff_of_true rfl trivial⟩
  | cons e events ih =>
    obtain ⟨still, lost, balanced, regular⟩ := step s e start
    obtain ⟨lost', balanced', regular'⟩ := ih still
    refine ⟨lost ++ lost', ?_, ?_⟩
    · simpa using balanced.trans balanced'
    · rw [append_eq_nil_iff, regular, regular']
      rfl

end Ledger
