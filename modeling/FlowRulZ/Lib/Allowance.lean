import Mathlib.Algebra.Order.Ring.Defs
import Mathlib.Tactic.Linarith
import Mathlib.Tactic.Ring

/-! # Allowances

A level that grows at a rate, up to a cap, and is drawn from.  What is drawn between two times
is at most the cap and what grows in between.
-/

namespace Allowance

variable {K : Type*} [CommRing K] [LinearOrder K]

/-- An amount is drawn at a time, from a level that was left at an earlier one. -/
structure Draw (rate cap level left time amount rest : K) : Prop where
  later : left ≤ time
  grown : rest + amount ≤ level + rate * (time - left)
  capped : rest + amount ≤ cap
  amount_nonneg : 0 ≤ amount
  rest_nonneg : 0 ≤ rest

/-- Draws one after the other, from a level that was left at a time. -/
inductive Draws (rate cap : K) : K → K → List (K × K) → Prop
  | nil {level left : K} : Draws rate cap level left []
  | cons {level left time amount rest : K} {log : List (K × K)}
      (first : Draw rate cap level left time amount rest) (more : Draws rate cap rest time log) :
      Draws rate cap level left ((time, amount) :: log)

def drawn (s t : K) (log : List (K × K)) : K :=
  ((log.filter fun draw => s ≤ draw.1 ∧ draw.1 ≤ t).map (·.2)).sum

variable {rate cap level left s t : K} {log : List (K × K)}

theorem drawn_cons (s t time amount : K) (log : List (K × K)) :
    drawn s t ((time, amount) :: log) = (if s ≤ time ∧ time ≤ t then amount else 0) + drawn s t log := by
  by_cases inside : s ≤ time ∧ time ≤ t <;> simp [drawn, inside]

theorem Draws.drawn_late (draws : Draws rate cap level left log) (late : t < left) : drawn s t log = 0 := by
  induction draws with
  | nil => rfl
  | cons first more ih =>
    have later := late.trans_le first.later
    rw [drawn_cons, if_neg fun inside => absurd inside.2 later.not_ge, ih later, zero_add]

variable [IsStrictOrderedRing K]

/-- What is drawn up to a time was left, or has grown since. -/
theorem Draws.drawn_le (draws : Draws rate cap level left log) (rate_nonneg : 0 ≤ rate)
    (level_nonneg : 0 ≤ level) (later : left ≤ t) : drawn s t log ≤ level + rate * (t - left) := by
  induction draws with
  | nil =>
    have grown := mul_nonneg rate_nonneg (sub_nonneg.mpr later)
    exact add_nonneg level_nonneg grown
  | @cons level left time amount rest log first more ih =>
    rw [drawn_cons]
    rcases le_or_gt time t with inTime | late
    · have onward := ih first.rest_nonneg inTime
      have counted : (if s ≤ time ∧ time ≤ t then amount else 0) ≤ amount := by
        split_ifs
        · exact le_rfl
        · exact first.amount_nonneg
      calc (if s ≤ time ∧ time ≤ t then amount else 0) + drawn s t log
          ≤ amount + (rest + rate * (t - time)) := add_le_add counted onward
        _ = rest + amount + rate * (t - time) := by ring
        _ ≤ level + rate * (time - left) + rate * (t - time) := by linarith [first.grown]
        _ = level + rate * (t - left) := by ring
    · have grown := mul_nonneg rate_nonneg (sub_nonneg.mpr later)
      rw [if_neg fun inside => absurd inside.2 late.not_ge, more.drawn_late late, zero_add]
      exact add_nonneg level_nonneg grown

/-- Whatever happened before, the first draw in a window finds at most the cap. -/
theorem Draws.drawn_window (draws : Draws rate cap level left log) (rate_nonneg : 0 ≤ rate) (cap_nonneg : 0 ≤ cap)
    (window : s ≤ t) : drawn s t log ≤ cap + rate * (t - s) := by
  have grown := mul_nonneg rate_nonneg (sub_nonneg.mpr window)
  induction draws with
  | nil => exact add_nonneg cap_nonneg grown
  | @cons level left time amount rest log first more ih =>
    rw [drawn_cons]
    by_cases inside : s ≤ time ∧ time ≤ t
    · have onward := more.drawn_le rate_nonneg first.rest_nonneg inside.2 (s := s)
      rw [if_pos inside]
      calc amount + drawn s t log ≤ amount + (rest + rate * (t - time)) := by linarith
        _ = rest + amount + rate * (t - time) := by ring
        _ ≤ cap + rate * (t - time) := by linarith [first.capped]
        _ ≤ cap + rate * (t - s) := by
            have shorter := mul_le_mul_of_nonneg_left (sub_le_sub_left inside.1 t) rate_nonneg
            linarith
    · rw [if_neg inside, zero_add]
      exact ih

end Allowance
