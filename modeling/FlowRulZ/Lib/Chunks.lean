import Mathlib.Data.List.Basic

/-! # Lists cut into pieces of one size

The last piece may be shorter.
-/

namespace Chunks

open List

variable {α : Type*}

def piece (size : Nat) (items : List α) (k : Nat) : List α := (items.drop (k * size)).take size

def chunks (size : Nat) (items : List α) : List (List α) :=
  (List.range ((items.length + size - 1) / size)).map (piece size items)

theorem length_chunks_le {count : Nat} (items : List α) (some : 0 < count) :
    (chunks ((items.length + count - 1) / count) items).length ≤ count := by
  have whole : items.length ≤ (items.length + count - 1) / count * count := by
    have upper := Nat.lt_div_mul_add (a := items.length + count - 1) (b := count) some
    omega
  rw [chunks, length_map, length_range]
  generalize (items.length + count - 1) / count = size at whole
  rcases Nat.eq_zero_or_pos size with rfl | positive
  · rw [Nat.div_zero]
    exact Nat.zero_le count
  · refine Nat.le_of_lt_succ (Nat.div_lt_of_lt_mul ?_)
    rw [Nat.mul_succ]
    omega

theorem ne_nil_of_mem_chunks {size : Nat} {items part : List α} (member : part ∈ chunks size items) : part ≠ [] := by
  obtain ⟨k, inside, rfl⟩ := mem_map.mp member
  have starts := mem_range.mp inside
  rcases Nat.eq_zero_or_pos size with rfl | positive
  · omega
  · have upper := (Nat.le_div_iff_mul_le positive).mp (Nat.succ_le_of_lt starts)
    rw [Nat.succ_mul] at upper
    rw [piece, Ne, take_eq_nil_iff, drop_eq_nil_iff]
    omega

theorem flatten_pieces (size : Nat) (items : List α) (n : Nat) :
    ((List.range n).map (piece size items)).flatten = items.take (n * size) := by
  induction n with
  | zero => simp
  | succ n ih => simp [range_succ, ih, Nat.succ_mul, take_add, piece]

theorem flatten_chunks {size : Nat} (positive : 0 < size) (items : List α) : (chunks size items).flatten = items := by
  have whole := Nat.lt_div_mul_add (a := items.length + size - 1) positive
  rw [chunks, flatten_pieces, take_of_length_le (by omega)]

theorem length_chunk {size k : Nat} {items part : List α} (found : (chunks size items)[k]? = some part) :
    part.length ≤ size ∧ (k + 1 < (chunks size items).length → part.length = size) := by
  obtain ⟨inside, rfl⟩ := List.getElem?_eq_some_iff.mp found
  simp only [chunks, length_map, length_range, getElem_map, getElem_range] at inside ⊢
  rw [piece, length_take, length_drop]
  refine ⟨Nat.min_le_left _ _, fun more => ?_⟩
  have ends := (Nat.le_div_iff_mul_le (Nat.pos_of_ne_zero fun zero => by simp [zero] at inside)).mp more
  rw [Nat.succ_mul, Nat.succ_mul] at ends
  omega

/-- A full piece in front is the first one. -/
theorem chunks_append {size : Nat} {front : List α} (full : front.length = size) (positive : 0 < size)
    (rest : List α) : chunks size (front ++ rest) = front :: chunks size rest := by
  have count : ((front ++ rest).length + size - 1) / size = (rest.length + size - 1) / size + 1 := by
    rw [length_append, full, Nat.add_assoc, Nat.add_sub_assoc (by omega), Nat.add_comm size, Nat.add_div_right _ positive]
  have first : piece size (front ++ rest) 0 = front := by simp [piece, ← full]
  have later (k : Nat) : piece size (front ++ rest) (k + 1) = piece size rest k := by
    rw [piece, Nat.succ_mul, Nat.add_comm, ← full, drop_length_add_append]
    rfl
  rw [chunks, count, range_succ_eq_map, map_cons, first, map_map]
  exact congrArg _ (map_congr_left fun k _ => later k)

theorem chunks_short {size : Nat} {items : List α} (some : items ≠ []) (short : items.length ≤ size) :
    chunks size items = [items] := by
  have positive := length_pos_iff.mpr some
  have one : (items.length + size - 1) / size = 1 := Nat.div_eq_of_lt_le (by omega) (by omega)
  simp [chunks, one, piece, take_of_length_le short]

variable {size k j : Nat} {before inside after : List α}

theorem piece_before (starts : k * size ≤ before.length) (earlier : j < k) :
    ∀ item ∈ piece size (before ++ inside ++ after) j, item ∈ before := by
  have ends : (j + 1) * size ≤ before.length := Nat.le_trans (Nat.mul_le_mul_right size earlier) starts
  rw [Nat.succ_mul] at ends
  intro item member
  rw [piece, append_assoc, drop_append_of_le_length (by omega),
    take_append_of_le_length (by rw [length_drop]; omega)] at member
  exact mem_of_mem_drop (mem_of_mem_take member)

theorem piece_after (ends : before.length + inside.length ≤ (k + 1) * size) (later : k < j) :
    ∀ item ∈ piece size (before ++ inside ++ after) j, item ∈ after := by
  have starts : (k + 1) * size ≤ j * size := Nat.mul_le_mul_right size later
  intro item member
  rw [piece, drop_append, drop_of_length_le (by rw [length_append]; omega)] at member
  exact mem_of_mem_drop (mem_of_mem_take member)

theorem piece_around (starts : k * size ≤ before.length) (ends : before.length + inside.length ≤ (k + 1) * size) :
    ∃ left right, piece size (before ++ inside ++ after) k = left ++ inside ++ right ∧
      (∀ item ∈ left, item ∈ before) ∧ ∀ item ∈ right, item ∈ after := by
  rw [Nat.succ_mul] at ends
  refine ⟨before.drop (k * size), after.take (size - (before.drop (k * size) ++ inside).length), ?_, ?_, ?_⟩
  · rw [piece, append_assoc, drop_append_of_le_length starts, ← append_assoc, take_append, take_of_length_le]
    rw [length_append, length_drop]
    omega
  · intro item member
    exact mem_of_mem_drop member
  · intro item member
    exact mem_of_mem_take member

end Chunks
