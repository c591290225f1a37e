import Mathlib.Data.List.Nodup
import Mathlib.Logic.Relation
import Mathlib.Order.WellFounded

/-! # Precedence

Items in layers, where one item may have to wait for others, and how a failure spreads
from an item to those that wait for it.
-/

namespace Precedence

open List

section Layers

variable {α : Type*} {layers : List (List α)} {i j : Nat} {layer later pre post : List α} {a b : α}

theorem mem_before (once : layers.flatten.Nodup) (earlier : i < j)
    (first : layers[i]? = some layer) (second : layers[j]? = some later) (inFirst : a ∈ layer)
    (inSecond : b ∈ later) (cut : layers.flatten = pre ++ b :: post) : a ∈ pre := by
  obtain ⟨inside, rfl⟩ := List.getElem?_eq_some_iff.mp second
  obtain ⟨left, right, split⟩ := append_of_mem inSecond
  have whole : layers.flatten = ((layers.take j).flatten ++ left) ++ b :: (right ++ (layers.drop (j + 1)).flatten) := by
    conv_lhs => rw [← take_append_drop j layers, drop_eq_getElem_cons inside]
    simp [split]
  have apart : b ∉ pre ∧ b ∉ post := by
    rw [cut, nodup_middle, nodup_cons, mem_append, not_or] at once
    exact once.1
  have same := (append_cons_inj_of_notMem apart.1 apart.2).mp (cut.symm.trans whole)
  rw [same.1]
  have taken : layer ∈ layers.take j := by
    apply mem_of_getElem? (i := i)
    rw [getElem?_take_of_lt earlier, first]
  exact mem_append_left _ (mem_flatten_of_mem taken inFirst)

end Layers

section Failures

variable {α : Type*} {parent : α → α → Prop} {started failed : α → Prop}

theorem started_iff (founded : WellFounded parent)
    (rule : ∀ n, started n ↔ ∀ p, parent p n → started p ∧ ¬ failed p) (n : α) :
    started n ↔ ∀ a, Relation.TransGen parent a n → ¬ failed a := by
  induction n using founded.induction with
  | _ n ih =>
    rw [rule]
    constructor
    · intro fine a above
      cases above with
      | single up => exact (fine a up).2
      | tail above up => exact (ih _ up).mp (fine _ up).1 a above
    · intro fine p up
      exact ⟨(ih p up).mpr fun a above => fine a (above.tail up), fine p (.single up)⟩

end Failures

end Precedence
