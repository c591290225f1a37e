import Mathlib.Data.List.Basic

/-! # Prefix codes

Values that are written one after the other can be told apart from the left: what is written
for a value determines it, whatever follows.
-/

/-- What is written for a value that satisfies `P` determines it and what follows. -/
def PrefixCode {α β : Type} (P : α → Prop) (write : α → List β) : Prop :=
  ∀ a b rest rest', P a → P b → write a ++ rest = write b ++ rest' → a = b ∧ rest = rest'

namespace PrefixCode

open List

variable {α β γ : Type} {P : α → Prop} {Q : γ → Prop} {f : α → List β} {g : γ → List β}

theorem of_length (n : Nat) (length : ∀ a, (f a).length = n) (injective : ∀ a b, P a → P b → f a = f b → a = b) :
    PrefixCode P f := by
  intro a b rest rest' here there same
  obtain ⟨written, after⟩ := append_inj same ((length a).trans (length b).symm)
  exact ⟨injective a b here there written, after⟩

theorem both (first : PrefixCode P f) (second : PrefixCode Q g) :
    PrefixCode (fun p : α × γ => P p.1 ∧ Q p.2) fun p => f p.1 ++ g p.2 := by
  intro p q rest rest' here there same
  rw [append_assoc, append_assoc] at same
  obtain ⟨left, middle⟩ := first _ _ _ _ here.1 there.1 same
  obtain ⟨right, after⟩ := second _ _ _ _ here.2 there.2 middle
  exact ⟨Prod.ext left right, after⟩

theorem sized {size : Nat → List β} {n : Nat} (count : PrefixCode (· < n) size) {f : α → List β}
    (injective : ∀ a b, f a = f b → a = b) : PrefixCode (fun a => (f a).length < n) fun a => size (f a).length ++ f a := by
  intro a b rest rest' here there same
  rw [append_assoc, append_assoc] at same
  obtain ⟨length, after⟩ := count _ _ _ _ here there same
  obtain ⟨written, after⟩ := append_inj after length
  exact ⟨injective a b written, after⟩

theorem flatMap (one : PrefixCode P f) {l l' : List α} (length : l.length = l'.length) (good : ∀ a ∈ l, P a)
    (good' : ∀ a ∈ l', P a) {rest rest' : List β} (same : l.flatMap f ++ rest = l'.flatMap f ++ rest') :
    l = l' ∧ rest = rest' := by
  induction l generalizing l' with
  | nil =>
    cases l' with
    | nil => exact ⟨rfl, same⟩
    | cons => cases length
  | cons a l ih =>
    cases l' with
    | nil => cases length
    | cons b l' =>
      simp only [flatMap_cons, append_assoc] at same
      obtain ⟨rfl, others⟩ := one a b _ _ (good a mem_cons_self) (good' b mem_cons_self) same
      obtain ⟨rfl, after⟩ := ih (Nat.succ.inj length) (fun x listed => good x (mem_cons_of_mem _ listed))
        (fun x listed => good' x (mem_cons_of_mem _ listed)) others
      exact ⟨rfl, after⟩

end PrefixCode
