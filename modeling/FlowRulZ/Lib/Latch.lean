import FlowRulZ.Lib.Splits
import Mathlib.Data.List.Infix

/-! # Latches

A flag that some events set, some clear and all others leave alone.  What the flag says
after a history is what the last event that touched it said.
-/

namespace Latch

open List

variable {α : Type*} (sets clears : α → Bool)

def touch (flag : Bool) (event : α) : Bool :=
  if sets event then true else if clears event then false else flag

def after (history : List α) : Bool := history.foldl (touch sets clears) false

def Idle (events : List α) : Prop := ∀ event ∈ events, sets event = false ∧ clears event = false

variable {sets clears}

@[simp]
theorem after_nil : after sets clears [] = false := rfl

@[simp]
theorem after_concat (history : List α) (event : α) :
    after sets clears (history ++ [event]) = touch sets clears (after sets clears history) event := by
  simp [after]

/-- The flag is set if the last event that touched it set it. -/
theorem after_iff (history : List α) : after sets clears history = true ↔
    ∃ before event idle, history = before ++ event :: idle ∧ sets event = true ∧
      Idle sets clears idle := by
  induction history using List.reverseRecOn with
  | nil => simp
  | append_singleton history last ih =>
    have more (idle : List α) : Idle sets clears (idle ++ [last]) ↔
        Idle sets clears idle ∧ sets last = false ∧ clears last = false := by
      simp only [Idle, forall_mem_append, forall_mem_singleton]
    rw [after_concat, touch, Splits.exists_concat]
    simp only [more]
    split_ifs with set clear
    · simp [set, Idle]
    · simp [set, clear]
    · simp [set, clear, ih]

/-- The flag is set if some event set it and none after it cleared it. -/
theorem after_iff_uncleared (history : List α) : after sets clears history = true ↔
      ∃ before event later, history = before ++ event :: later ∧ sets event = true ∧
        ∀ other ∈ later, clears other = false := by
  constructor
  · intro flag
    obtain ⟨before, event, idle, split, set, rest⟩ := (after_iff history).mp flag
    exact ⟨before, event, idle, split, set, fun other inside => (rest other inside).2⟩
  · rintro ⟨before, event, later, rfl, set, uncleared⟩
    induction later using List.reverseRecOn with
    | nil => simp [touch, set]
    | append_singleton later last ih =>
      have flag := ih fun other inside => uncleared other (mem_append_left _ inside)
      have kept := uncleared last (by simp)
      rw [← cons_append, ← append_assoc, after_concat, flag, touch, kept]
      simp

/-- Wherever an event clears the flag, the flag tells whether the event just before it set it, if and only if the flag
is cleared at once or not at all. -/
theorem prompt_iff (history : List α) :
    (∀ before event later, history = before ++ event :: later → clears event = true →
      (after sets clears before = true ↔ ∃ last, before.getLast? = some last ∧ sets last = true)) ↔
    (∀ before event idle event' later, history = before ++ event :: idle ++ event' :: later →
      sets event = true → Idle sets clears idle → clears event' = true → idle = []) := by
  constructor
  · intro exact_ before event idle event' later split set rest clear
    have flag : after sets clears (before ++ event :: idle) = true :=
      (after_iff _).mpr ⟨before, event, idle, rfl, set, rest⟩
    obtain ⟨last, found, lastSet⟩ := (exact_ _ event' later split clear).mp flag
    rcases idle.eq_nil_or_concat' with empty | ⟨idle, last', rfl⟩
    · exact empty
    · rw [← cons_append, ← append_assoc, getLast?_concat] at found
      obtain rfl := Option.some.inj found
      rw [(rest last' (by simp)).1] at lastSet
      cases lastSet
  · intro prompt before event later split clear
    constructor
    · intro flag
      obtain ⟨earlier, setter, idle, rfl, set, rest⟩ := (after_iff before).mp flag
      obtain rfl := prompt earlier setter idle event later split set rest clear
      exact ⟨setter, getLast?_concat, set⟩
    · rintro ⟨last, found, set⟩
      obtain ⟨earlier, rfl⟩ := getLast?_eq_some_iff.mp found
      simp [touch, set]

end Latch
