import FlowRulZ.Partition.Balance

/-! # The maps of followers

A node that rebalances publishes its assignments, and the others build their maps from the messages.  Only a manager
that has been told its leader looks at terms.
-/

open List

namespace FlowRulZ.Partition

namespace Manager

/-- A node computes assignments and publishes them. -/
def announce (m : Manager) (nodes : List String) (term : UInt64) : Except String PartitionMessage :=
  let after := m.rebalance nodes term
  after.1.publishAssignments after.2

/-- A message of a node that has these maps. -/
def Announced (numPartitions : UInt32) (pm : PartitionMessage) (slots : Slots) : Prop :=
  ∃ (leader : Manager) (nodes : List String), leader.numPartitions = numPartitions ∧ nodes ≠ [] ∧
    leader.announce nodes pm.term = .ok pm ∧ (leader.rebalance nodes pm.term).1.slots = slots

/-- The message that counts: the last one, or the one of the highest term of the leader, where that is known. -/
def Decisive (m : Manager) (msgs : List PartitionMessage) (top : PartitionMessage) : Prop :=
  if m.leaderID = "" then msgs.getLast? = some top
  else top ∈ msgs ∧ top.nodeID = m.leaderID ∧ m.currentTerm ≤ top.term ∧
    ∀ pm ∈ msgs, pm.nodeID = m.leaderID → pm ≠ top → pm.term < top.term

variable {m : Manager} {pm : PartitionMessage} {slots : Slots}

theorem Announced.eq (announced : Announced m.numPartitions pm slots) :
    ∃ nodes, slots = balanced m.numPartitions nodes ∧ pm.type = "assign" ∧
      pm.assignments = (places m.numPartitions (nodes.insertionSort (· ≤ ·))).map fun place =>
        { nodeID := place.1, partition := place.2, term := pm.term } := by
  obtain ⟨leader, nodes, same, some, sent, rfl⟩ := announced
  rw [announce, leader.rebalance_eq some] at sent
  rw [leader.rebalance_eq some, same]
  simp only [publishAssignments] at sent
  refine ⟨nodes, rfl, ?_⟩
  split at sent
  · rw [← Except.ok.inj sent]
    refine ⟨rfl, ext_getElem? fun i => ?_⟩
    by_cases inside : i < m.numPartitions.toNat <;> simp [balanced_assignments, same, places, inside]
  · cases sent

theorem term_applied {assignments : List Assignment} {term : UInt64} (some : assignments ≠ [])
    (same : ∀ a ∈ assignments, a.term = term) (before : m.currentTerm ≤ term) :
    (m.applyAssignments assignments).currentTerm = term := by
  simp only [applyAssignments]
  generalize m.currentTerm = current at before
  induction assignments generalizing current with
  | nil => exact absurd rfl some
  | cons a assignments ih =>
    have own := same a mem_cons_self
    have now : (if current < a.term then a.term else current) = term := by grind
    rw [foldl_cons, now]
    cases assignments with
    | nil => rfl
    | cons b rest => exact ih (cons_ne_nil _ _) (fun b listed => same b (mem_cons_of_mem _ listed)) term (UInt64.le_refl _)

/-- A follower that applies the assignments has the maps of their sender. -/
theorem Announced.applied (announced : Announced m.numPartitions pm slots) :
    (m.applyAssignments pm.assignments).slots = slots ∧
      (m.numPartitions ≠ 0 → m.currentTerm ≤ pm.term → (m.applyAssignments pm.assignments).currentTerm = pm.term) := by
  obtain ⟨nodes, rfl, -, sent⟩ := announced.eq
  rw [sent]
  refine ⟨?_, fun some before => term_applied ?_ ?_ before⟩
  · have all : ∀ place ∈ places m.numPartitions (nodes.insertionSort (· ≤ ·)), decide (place.2 < m.numPartitions) = true :=
      fun place member => decide_eq_true (mem_places member)
    simp only [applyAssignments, balanced, Manager.applied, filter_map, map_map, Function.comp_def]
    rw [filter_eq_self.mpr all, map_id']
  · simpa [places, ← UInt32.toNat_inj] using some
  · simp only [mem_map]
    rintro a ⟨place, -, rfl⟩
    rfl

theorem Announced.handle (announced : Announced m.numPartitions pm slots) (quote : String → String) :
    (m.handleAssignmentMessage quote pm).1 =
      if m.leaderID = "" ∨ pm.nodeID = m.leaderID ∧ m.currentTerm ≤ pm.term then m.applyAssignments pm.assignments
      else m := by
  obtain ⟨-, -, assign, -⟩ := announced.eq
  rw [handleAssignmentMessage_fst]
  refine if_congr ?_ rfl rfl
  simp only [check, assign, true_and, ← UInt64.not_lt]
  grind

end Manager

section

variable (quote : String → String) (m : Manager) (msgs : List PartitionMessage)

theorem handled_frame : let s := (manager quote).after m (msgs.map .handleAssignmentMessage)
    s.leaderID = m.leaderID ∧ s.numPartitions = m.numPartitions := by
  refine Component.after_of_invariant (P := fun s : Manager => s.leaderID = m.leaderID ∧ s.numPartitions = m.numPartitions)
    ⟨rfl, rfl⟩ ?_
  intro s operation listed same
  obtain ⟨pm, -, rfl⟩ := mem_map.mp listed
  simp only [manager, s.handleAssignmentMessage_fst]
  split <;> exact same

variable {quote m msgs} {maps : PartitionMessage → Slots}

/-- While the messages of a known leader are handled, the highest term they have had is in force. -/
theorem handled_named (some : m.numPartitions ≠ 0)
    (announced : ∀ pm ∈ msgs, Manager.Announced m.numPartitions pm (maps pm)) (named : m.leaderID ≠ "")
    {top : PartitionMessage} (own : top.nodeID = m.leaderID) (new : m.currentTerm ≤ top.term)
    (last : ∀ pm ∈ msgs, pm.nodeID = m.leaderID → pm ≠ top → pm.term < top.term) :
    let s := (manager quote).after m (msgs.map .handleAssignmentMessage)
    s.currentTerm ≤ top.term ∧ (top ∈ msgs → s.slots = maps top ∧ s.currentTerm = top.term) := by
  induction msgs using List.reverseRecOn with
  | nil => exact ⟨new, nofun⟩
  | append_singleton done pm ih =>
    have before := ih (fun pm listed => announced pm (by simp [listed])) fun pm listed => last pm (by simp [listed])
    have frame := handled_frame quote m done
    have here := announced pm (by simp)
    have latest := last pm (by simp)
    rw [map_append, map_singleton, Component.after_concat]
    simp only [manager] at before frame ⊢
    generalize Component.after _ m _ = s at before frame ⊢
    obtain ⟨leader, parts⟩ := frame
    rw [← parts] at here some
    rw [here.handle quote, leader]
    have applied := here.applied
    by_cases same : pm = top
    · subst same
      rw [if_pos (.inr ⟨own, before.1⟩), applied.1, applied.2 some before.1]
      exact ⟨UInt64.le_refl _, fun _ => ⟨rfl, rfl⟩⟩
    · have there : top ∈ done ++ [pm] ↔ top ∈ done := by simp [Ne.symm same]
      rw [there]
      split
      next accepted =>
        obtain ⟨sender, later⟩ := accepted.resolve_left named
        rw [applied.2 some later]
        have less := latest sender same
        refine ⟨UInt64.le_of_lt less, fun handled => ?_⟩
        rw [(before.2 handled).2] at later
        exact absurd less (UInt64.not_lt.mpr later)
      next => exact before

end

/-- Followers have the maps of the node whose message counts, in whatever order and however often messages come. -/
theorem followers_agree (quote : String → String) (m : Manager) (msgs : List PartitionMessage)
    (maps : PartitionMessage → Slots) (some : m.numPartitions ≠ 0)
    (announced : ∀ pm ∈ msgs, Manager.Announced m.numPartitions pm (maps pm)) (top : PartitionMessage)
    (decisive : m.Decisive msgs top) :
    ((manager quote).after m (msgs.map .handleAssignmentMessage)).slots = maps top := by
  unfold Manager.Decisive at decisive
  split at decisive
  next unnamed =>
    obtain ⟨done, rfl⟩ := getLast?_eq_some_iff.mp decisive
    obtain ⟨leader, parts⟩ := handled_frame quote m done
    have here := announced top (by simp)
    rw [← parts] at here
    rw [map_append, map_singleton, Component.after_concat]
    have handled := here.handle quote
    rw [if_pos (.inl (leader.trans unnamed))] at handled
    exact (congrArg Manager.slots handled).trans here.applied.1
  next named =>
    obtain ⟨sent, own, new, last⟩ := decisive
    exact ((handled_named some announced named own new last).2 sent).1

/-- An old message comes late. -/
theorem followers_agree_late : let leader := { newManager 2 with producer := true, leaderID := "a" }
    let sent := fun nodes term =>
      { type := "assign", assignments := (leader.rebalance nodes term).2, nodeID := "a", term : PartitionMessage }
    ((manager id).after { newManager 2 with leaderID := "a" }
      ([sent ["a", "b"] 2, sent ["a"] 1].map .handleAssignmentMessage)).slots = (leader.rebalance ["a", "b"] 2).1.slots := by
  intro leader sent
  refine followers_agree id { newManager 2 with leaderID := "a" } [sent ["a", "b"] 2, sent ["a"] 1]
    (fun pm => (leader.rebalance (if pm.term = 2 then ["a", "b"] else ["a"]) pm.term).1.slots) (by decide) ?_
    (sent ["a", "b"] 2) ?_
  · simp only [mem_cons, not_mem_nil, or_false, forall_eq_or_imp, forall_eq]
    exact ⟨⟨leader, ["a", "b"], rfl, by decide, rfl, rfl⟩, ⟨leader, ["a"], rfl, by decide, rfl, rfl⟩⟩
  · unfold Manager.Decisive
    decide

end FlowRulZ.Partition
