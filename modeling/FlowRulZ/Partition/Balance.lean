import FlowRulZ.Partition.Manager
import Mathlib.Data.Int.CardIntervalMod

/-! # What rebalancing assigns

The partitions go round the sorted nodes, so that the numbers of partitions differ by at most one and
the order in which the nodes are listed does not matter.
-/

open List

namespace FlowRulZ.Partition

namespace Manager

theorem fill_places (numPartitions : UInt32) (node : ℕ → String) : ∀ k ≤ numPartitions.toNat,
      ((Slots.empty numPartitions).fill ((List.range k).map fun i => (node i, UInt32.ofNat i))).assignments =
        (List.range k).map node ++ List.replicate (numPartitions.toNat - k) "" := by
  intro k
  induction k with
  | zero => intro _; rfl
  | succ k ih =>
    intro below
    have small := numPartitions.toNat_lt
    have left : numPartitions.toNat - k = (numPartitions.toNat - (k + 1)) + 1 := by omega
    have place : (UInt32.ofNat k).toNat = k := by rw [UInt32.toNat_ofNat', Nat.mod_eq_of_lt (by omega)]
    simp only [range_succ, map_append, map_singleton, Slots.fill_concat, Slots.put]
    rw [ih (by omega), place, left, replicate_succ]
    simp

variable {nodes : List String}

/-- How often a node with some place comes up when the nodes are gone round. -/
theorem count_round (distinct : nodes.Nodup) {j : ℕ} (inside : j < nodes.length) (k : ℕ) :
    ((List.range k).map fun i => nodes.getD (i % nodes.length) "").count nodes[j] =
      k / nodes.length + if j < k % nodes.length then 1 else 0 := by
  have positive : 0 < nodes.length := by omega
  have here (i : ℕ) : nodes.getD (i % nodes.length) "" = nodes[j] ↔ i ≡ j [MOD nodes.length] := by
    simp [Nat.mod_lt i positive, distinct.getElem_inj_iff, Nat.ModEq, Nat.mod_eq_of_lt inside]
  have counted := Nat.count_modEq_card k positive j
  rw [Nat.mod_eq_of_lt inside] at counted
  rw [← counted, List.count, countP_map]
  exact countP_congr fun i _ => by simpa using here i

theorem succ_div {count length : ℕ} (positive : 0 < length) (rest : 0 < count % length) :
    count / length + 1 = (count + length - 1) / length := by
  have split := Nat.div_add_mod count length
  have below := Nat.mod_lt count positive
  refine (Nat.div_eq_of_lt_le ?_ ?_).symm <;> simp only [Nat.add_mul, Nat.mul_comm (count / length)] <;> omega

def balanced (numPartitions : UInt32) (nodes : List String) : Slots :=
  (Slots.empty numPartitions).fill (places numPartitions (nodes.insertionSort (· ≤ ·)))

theorem rebalance_eq (m : Manager) (some : nodes ≠ []) (term : UInt64) : m.rebalance nodes term =
      ({ m with currentTerm := term, slots := balanced m.numPartitions nodes },
        (balanced m.numPartitions nodes).assignments.mapIdx fun i nodeID =>
          { nodeID, partition := UInt32.ofNat i, term }) := by
  have sorted : nodes.insertionSort (· ≤ ·) ≠ [] := by
    rwa [ne_eq, ← length_eq_zero_iff, length_insertionSort, length_eq_zero_iff]
  exact if_neg sorted

section

variable (numPartitions : UInt32)

theorem balanced_assignments (nodes : List String) :
    (balanced numPartitions nodes).assignments = (places numPartitions (nodes.insertionSort (· ≤ ·))).map (·.1) := by
  rw [balanced, places, fill_places _ _ _ le_rfl]
  simp

theorem balanced_length (nodes : List String) (node : String) :
    ((balanced numPartitions nodes).partitionsForNode node).length =
      (balanced numPartitions nodes).assignments.count node := by
  rw [balanced_assignments, balanced, Slots.fill_partitionsForNode, length_map, List.count, countP_map,
    countP_eq_length_filter]
  congr

theorem balanced_count (distinct : nodes.Nodup) {node : String} (listed : node ∈ nodes) :
    (balanced numPartitions nodes).assignments.count node = numPartitions.toNat / nodes.length ∨
      (balanced numPartitions nodes).assignments.count node =
        (numPartitions.toNat + nodes.length - 1) / nodes.length := by
  have perm := perm_insertionSort (· ≤ ·) nodes
  obtain ⟨j, inside, rfl⟩ := mem_iff_getElem.mp (perm.mem_iff.mpr listed)
  have counted := count_round (perm.nodup_iff.mpr distinct) inside numPartitions.toNat
  rw [balanced_assignments, places, map_map, ← perm.length_eq]
  simp only [Function.comp_def, counted]
  split
  next less =>
    right
    exact succ_div (by omega) (by omega)
  next => exact .inl rfl

theorem balanced_congr {nodes nodes' : List String} (distinct : nodes.Nodup)
    (distinct' : nodes'.Nodup) (same : ∀ node, node ∈ nodes' ↔ node ∈ nodes) :
    balanced numPartitions nodes' = balanced numPartitions nodes := by
  have perm : nodes'.Perm nodes := (perm_ext_iff_of_nodup distinct' distinct).mpr same
  have sorted : nodes'.insertionSort (· ≤ ·) = nodes.insertionSort (· ≤ ·) := by
    apply List.Perm.eq_of_sortedLE sortedLE_insertionSort sortedLE_insertionSort
    exact (perm_insertionSort _ _).trans (perm.trans (perm_insertionSort _ _).symm)
  rw [balanced, balanced, sorted]

end

end Manager

/-- Every partition goes to a listed node, the numbers of partitions differ by at most one, and two managers
with the same nodes assign alike; the term in what is returned is the one that was given. -/
theorem rebalance_even (m : Manager) (nodes : List String) (term : UInt64) (some : nodes ≠ [])
    (distinct : nodes.Nodup) :
    let after := m.rebalance nodes term
    let count := m.numPartitions.toNat
    (∀ p < m.numPartitions, after.1.slots.nodeForPartition p ∈ nodes) ∧
      (∀ node ∈ nodes, ((after.1.slots.partitionsForNode node).length = count / nodes.length ∨
          (after.1.slots.partitionsForNode node).length = (count + nodes.length - 1) / nodes.length) ∧
        after.1.slots.assignments.count node = (after.1.slots.partitionsForNode node).length) ∧
      after.2.map (fun a => (a.nodeID, a.partition)) =
        after.1.slots.assignments.mapIdx (fun i node => (node, UInt32.ofNat i)) ∧
      ∀ (m' : Manager) (nodes' : List String) (term' : UInt64), m'.numPartitions = m.numPartitions → nodes'.Nodup →
        (∀ node, node ∈ nodes' ↔ node ∈ nodes) →
        (m'.rebalance nodes' term').1.slots = after.1.slots ∧
          (m'.rebalance nodes' term').2.map (fun a => { a with term }) = after.2 := by
  intro after count
  have result : after = _ := m.rebalance_eq some term
  refine ⟨?_, ?_, ?_, ?_⟩
  · intro p below
    rw [result]
    have there : p.toNat < count := UInt32.lt_iff_toNat_lt.mp below
    have inside := Nat.mod_lt p.toNat (length_pos_iff.mpr some)
    have perm := perm_insertionSort (· ≤ ·) nodes
    simp only [Slots.nodeForPartition, Manager.balanced_assignments, Manager.places]
    rw [← perm.mem_iff]
    simp [there, inside, count]
  · intro node listed
    rw [result]
    exact ⟨Manager.balanced_length .. ▸ Manager.balanced_count _ distinct listed, (Manager.balanced_length ..).symm⟩
  · rw [result]
    exact ext_getElem? fun i => by simp [Function.comp_def]
  · intro m' nodes' term' same distinct' members
    have some' : nodes' ≠ [] := by
      obtain ⟨node, listed⟩ := exists_mem_of_ne_nil _ some
      exact ne_nil_of_mem ((members node).mpr listed)
    rw [result, m'.rebalance_eq some' term', same, Manager.balanced_congr _ distinct distinct' members]
    exact ⟨rfl, ext_getElem? fun i => by simp [Function.comp_def]⟩

theorem rebalance_even_two_nodes :
    ((newManager 5).rebalance ["a", "b"] 7).1.slots = ((newManager 5).rebalance ["b", "a"] 1).1.slots :=
  ((rebalance_even (newManager 5) ["b", "a"] 1 (by decide) (by decide)).2.2.2 (newManager 5) ["a", "b"] 7 rfl
    (by decide) fun node => by simp [or_comm]).1

end FlowRulZ.Partition
