import FlowRulZ.Lib.Component
import Mathlib.Data.List.AList
import Mathlib.Data.List.Induction
import Mathlib.Data.List.Sort
import Mathlib.Data.String.Basic

/-! # The partition manager

The manager keeps two maps: the node of every partition, and the partitions of every node.  Both are
rebuilt whenever the leader rebalances and whenever assignments come from the network.
-/

namespace FlowRulZ.Partition

open List

abbrev PartitionID := UInt32

structure Assignment where
  nodeID : String
  address : String := ""
  partition : PartitionID
  term : UInt64
  deriving Repr, DecidableEq

structure PartitionMessage where
  type : String
  assignments : List Assignment
  nodeID : String := ""
  term : UInt64
  deriving Repr, DecidableEq

structure Slots where
  assignments : List String
  nodeParts : AList fun _ : String => List PartitionID

namespace Slots

def empty (numPartitions : UInt32) : Slots := ⟨List.replicate numPartitions.toNat "", ∅⟩

variable (slots : Slots)

def nodeForPartition (partition : PartitionID) : String := slots.assignments.getD partition.toNat ""

def partitionsForNode (nodeID : String) : List PartitionID := (slots.nodeParts.lookup nodeID).getD []

def put (nodeID : String) (partition : PartitionID) : Slots where
  assignments := slots.assignments.set partition.toNat nodeID
  nodeParts := slots.nodeParts.insert nodeID (slots.partitionsForNode nodeID ++ [partition])

/-- The maps after some partitions have been given to nodes. -/
def fill (places : List (String × PartitionID)) : Slots := places.foldl (fun slots place => slots.put place.1 place.2) slots

end Slots

structure Manager where
  numPartitions : UInt32
  slots : Slots
  currentTerm : UInt64 := 0
  producer : Bool := false
  leaderID : String := ""

def defaultNumPartitions : UInt32 := 64

def newManager (numPartitions : UInt32) : Manager :=
  let numPartitions := if numPartitions = 0 then defaultNumPartitions else numPartitions
  { numPartitions, slots := .empty numPartitions }

namespace Manager

variable (m : Manager)

/-- The node that a partition is given to; `aliveNodes` has been sorted. -/
def places (numPartitions : UInt32) (aliveNodes : List String) : List (String × PartitionID) :=
  (List.range numPartitions.toNat).map fun i => (aliveNodes.getD (i % aliveNodes.length) "", UInt32.ofNat i)

def rebalance (aliveNodes : List String) (term : UInt64) : Manager × List Assignment :=
  let aliveNodes := aliveNodes.insertionSort (· ≤ ·)
  if aliveNodes = [] then ({ m with currentTerm := term, slots := .empty m.numPartitions }, [])
  else
    let slots := (Slots.empty m.numPartitions).fill (places m.numPartitions aliveNodes)
    ({ m with currentTerm := term, slots },
      slots.assignments.mapIdx fun i nodeID => { nodeID, partition := UInt32.ofNat i, term })

def applied (numPartitions : UInt32) (assignments : List Assignment) : List (String × PartitionID) :=
  (assignments.filter (·.partition < numPartitions)).map fun a => (a.nodeID, a.partition)

def applyAssignments (assignments : List Assignment) : Manager :=
  { m with
    slots := (Slots.empty m.numPartitions).fill (applied m.numPartitions assignments)
    currentTerm := assignments.foldl (fun term a => if term < a.term then a.term else term) m.currentTerm }

/-- What is sent for some assignments; the sending comes after it and may fail. -/
def publishAssignments (assignments : List Assignment) : Except String PartitionMessage :=
  if m.producer then .ok { type := "assign", assignments, nodeID := m.leaderID, term := m.currentTerm }
  else .error "partition: no producer configured"

/-- The checks of a message; `quote` is the quoting of `fmt`. -/
def check (quote : String → String) (pm : PartitionMessage) : Except String Unit :=
  if m.leaderID ≠ "" ∧ pm.nodeID ≠ m.leaderID then
    .error s!"partition: assignment from non-leader {quote pm.nodeID} (leader is {quote m.leaderID})"
  else if pm.term < m.currentTerm ∧ m.leaderID ≠ "" then
    .error s!"partition: stale term {pm.term} < current {m.currentTerm}"
  else .ok ()

def handleAssignmentMessage (quote : String → String) (pm : PartitionMessage) : Manager × Except String Unit :=
  if pm.type = "assign" then
    match m.check quote pm with
    | .error err => (m, .error err)
    | .ok () => (m.applyAssignments pm.assignments, .ok ())
  else (m, .ok ())

def onLeaderChange (leaderID : String) : Manager := { m with leaderID }

end Manager

inductive Operation where
  | rebalance (aliveNodes : List String) (term : UInt64)
  | applyAssignments (assignments : List Assignment)
  | handleAssignmentMessage (pm : PartitionMessage)
  | onLeaderChange (leaderID : String)

def manager (quote : String → String) : Component Manager Operation Empty where
  handle m
    | .rebalance aliveNodes term => ((m.rebalance aliveNodes term).1, [])
    | .applyAssignments assignments => (m.applyAssignments assignments, [])
    | .handleAssignmentMessage pm => ((m.handleAssignmentMessage quote pm).1, [])
    | .onLeaderChange leaderID => (m.onLeaderChange leaderID, [])

namespace Slots

variable {slots : Slots} {node nodeID : String} {p partition : PartitionID} {numPartitions : UInt32}

/-- A partition is listed for its node, once, and for no other one. -/
def Inverse (slots : Slots) (numPartitions : UInt32) : Prop :=
  ∀ p < numPartitions, ∀ node, node ≠ "" →
    (slots.partitionsForNode node).count p = if slots.nodeForPartition p = node then 1 else 0

@[simp]
theorem empty_nodeForPartition : (empty numPartitions).nodeForPartition p = "" := by
  simp [empty, nodeForPartition, getD_eq_getElem?_getD, getElem?_replicate]
  split <;> rfl

@[simp]
theorem empty_partitionsForNode : (empty numPartitions).partitionsForNode node = [] := rfl

theorem put_partitionsForNode : (slots.put nodeID partition).partitionsForNode node =
      slots.partitionsForNode node ++ if node = nodeID then [partition] else [] := by
  by_cases same : node = nodeID
  · subst same
    simp [put, partitionsForNode]
  · simp [put, partitionsForNode, same]

theorem put_nodeForPartition (inside : partition.toNat < slots.assignments.length) :
    (slots.put nodeID partition).nodeForPartition p = if p = partition then nodeID else slots.nodeForPartition p := by
  by_cases same : p = partition
  · subst same
    simp [put, nodeForPartition, inside]
  · have apart : partition.toNat ≠ p.toNat := fun eq => same (UInt32.toNat_inj.mp eq.symm)
    simp [put, nodeForPartition, getD_eq_getElem?_getD, getElem?_set_ne apart, same]

section

variable (places : List (String × PartitionID))

@[simp]
theorem fill_concat (place : String × PartitionID) :
    slots.fill (places ++ [place]) = (slots.fill places).put place.1 place.2 := by
  simp [fill]

@[simp]
theorem fill_length : (slots.fill places).assignments.length = slots.assignments.length := by
  induction places using List.reverseRecOn with
  | nil => rfl
  | append_singleton places place ih => simpa [put] using ih

theorem fill_partitionsForNode : ((empty numPartitions).fill places).partitionsForNode node =
      (places.filter (·.1 = node)).map (·.2) := by
  induction places using List.reverseRecOn with
  | nil => rfl
  | append_singleton places place ih =>
    rw [fill_concat, put_partitionsForNode, filter_append, map_append]
    congr 1
    by_cases same : node = place.1
    · simp [same]
    · simp [same, Ne.symm same]

end

def column (places : List (String × PartitionID)) (p : PartitionID) : List String := (places.filter (·.2 = p)).map (·.1)

variable {places : List (String × PartitionID)}

theorem fill_nodeForPartition (inside : ∀ place ∈ places, place.2 < numPartitions) :
    ((empty numPartitions).fill places).nodeForPartition p = (column places p).getLastD "" := by
  induction places using List.reverseRecOn with
  | nil => exact empty_nodeForPartition
  | append_singleton places place ih =>
    have below := UInt32.lt_iff_toNat_lt.mp (inside place (by simp))
    rw [fill_concat, put_nodeForPartition (by simpa [empty] using below), ih fun other member => inside other (by simp [member])]
    by_cases same : place.2 = p
    · simp [column, same]
    · simp [column, same, Ne.symm same]

theorem fill_count : (((empty numPartitions).fill places).partitionsForNode node).count p = (column places p).count node := by
  rw [fill_partitionsForNode, column, count_eq_countP, count_eq_countP, countP_map, countP_map,
    countP_filter, countP_filter]
  exact countP_congr fun place _ => by simp [and_comm]

theorem count_last (nodes : List String) :
    (∀ node, node ≠ "" → nodes.count node = if nodes.getLastD "" = node then 1 else 0) ↔ ∀ node ∈ nodes.dropLast, node = "" := by
  induction nodes using List.reverseRecOn with
  | nil => simp [eq_comm]
  | append_singleton nodes last _ =>
    have count (node : String) : ((nodes ++ [last]).count node = if (nodes ++ [last]).getLastD "" = node then 1 else 0) ↔
        node ∉ nodes := by
      rw [← count_eq_zero, count_append]
      by_cases same : last = node <;> simp [same]
    grind

theorem inverse_empty (numPartitions : UInt32) : (empty numPartitions).Inverse numPartitions := by
  intro p _ node named
  simp [Ne.symm named]

/-- The maps are inverse to each other exactly if a partition is given away only as long as its node has no name. -/
theorem inverse_fill (inside : ∀ place ∈ places, place.2 < numPartitions) :
    ((empty numPartitions).fill places).Inverse numPartitions ↔
      ∀ p < numPartitions, ∀ node ∈ (column places p).dropLast, node = "" := by
  simp only [Inverse, fill_nodeForPartition inside, fill_count, count_last]

end Slots

/-- Of the assignments of a partition only the last one names a node. -/
def Single (numPartitions : UInt32) (assignments : List Assignment) : Prop :=
  ∀ p < numPartitions, ∀ node ∈ ((assignments.filter (·.partition = p)).map (·.nodeID)).dropLast, node = ""

namespace Manager

variable (m : Manager)

theorem inverse_applied (assignments : List Assignment) :
    (m.applyAssignments assignments).slots.Inverse m.numPartitions ↔ Single m.numPartitions assignments := by
  have inside : ∀ place ∈ applied m.numPartitions assignments, place.2 < m.numPartitions := by
    intro place member
    obtain ⟨a, listed, rfl⟩ := mem_map.mp member
    simpa using (mem_filter.mp listed).2
  rw [applyAssignments, Slots.inverse_fill inside]
  refine forall₂_congr fun p below => ?_
  have column : Slots.column (applied m.numPartitions assignments) p =
      (assignments.filter (·.partition = p)).map (·.nodeID) := by
    rw [Slots.column, applied, filter_map, map_map, filter_filter]
    refine congrArg _ (filter_congr fun a _ => ?_)
    grind
  rw [column]

theorem mem_places {numPartitions : UInt32} {nodes : List String} {place : String × PartitionID}
    (member : place ∈ places numPartitions nodes) : place.2 < numPartitions := by
  obtain ⟨i, below, rfl⟩ := mem_map.mp member
  rw [mem_range] at below
  have small := numPartitions.toNat_lt
  rw [UInt32.lt_iff_toNat_lt, UInt32.toNat_ofNat', Nat.mod_eq_of_lt (by omega)]
  exact below

theorem rebalance_numPartitions (aliveNodes : List String) (term : UInt64) :
    (m.rebalance aliveNodes term).1.numPartitions = m.numPartitions := by
  unfold rebalance
  dsimp only
  split <;> rfl

theorem inverse_rebalanced (aliveNodes : List String) (term : UInt64) :
    (m.rebalance aliveNodes term).1.slots.Inverse m.numPartitions := by
  unfold rebalance
  dsimp only
  split
  · exact Slots.inverse_empty _
  · refine (Slots.inverse_fill fun _ => mem_places).mpr fun p _ node listed => ?_
    have once : ((places m.numPartitions (aliveNodes.insertionSort (· ≤ ·))).map (·.2)).Nodup := by
      rw [places, map_map]
      refine nodup_range.map_on fun i first j second same => ?_
      rw [mem_range] at first second
      have small := m.numPartitions.toNat_lt
      have equal := congrArg UInt32.toNat same
      simp only [Function.comp, UInt32.toNat_ofNat'] at equal
      rwa [Nat.mod_eq_of_lt (by omega), Nat.mod_eq_of_lt (by omega)] at equal
    have few := nodup_iff_count_le_one.mp once p
    rw [count_eq_countP, countP_map, countP_eq_length_filter] at few
    change (List.filter (fun place : String × PartitionID => decide (place.2 = p)) _).length ≤ 1 at few
    have long := length_pos_of_mem listed
    simp only [length_dropLast, Slots.column, length_map] at long
    omega

theorem handleAssignmentMessage_fst (quote : String → String) (pm : PartitionMessage) :
    (m.handleAssignmentMessage quote pm).1 =
      if pm.type = "assign" ∧ m.check quote pm = .ok () then m.applyAssignments pm.assignments else m := by
  unfold handleAssignmentMessage
  cases checked : m.check quote pm <;> by_cases assign : pm.type = "assign" <;> simp [assign]

/-- Assignments are only applied if each partition has one node. -/
def Clean (quote : String → String) (m : Manager) : Operation → Prop
  | .rebalance _ _ | .onLeaderChange _ => True
  | .applyAssignments assignments => Single m.numPartitions assignments
  | .handleAssignmentMessage pm =>
    pm.type = "assign" → m.check quote pm = .ok () → Single m.numPartitions pm.assignments

end Manager

/-- The maps are inverse to each other exactly if in all assignments that are applied only the last one for a
partition names a node. -/
theorem partition_maps_inverse_iff (quote : String → String) (numPartitions : UInt32) (operations : List Operation) :
    (manager quote).Always (fun m => m.slots.Inverse m.numPartitions) (newManager numPartitions) operations ↔
      (manager quote).Throughout (Manager.Clean quote) (newManager numPartitions) operations := by
  refine Component.always_iff_throughout_of_step _ (I := fun m => m.slots.Inverse m.numPartitions) (fun _ => id) ?_ ?_
  · intro m operation inverse
    cases operation with
    | rebalance aliveNodes term =>
      refine ⟨fun _ => trivial, fun _ => ?_⟩
      have after := m.inverse_rebalanced aliveNodes term
      rwa [← m.rebalance_numPartitions aliveNodes term] at after
    | applyAssignments assignments => exact ⟨(m.inverse_applied assignments).mp, (m.inverse_applied assignments).mpr⟩
    | handleAssignmentMessage pm =>
      simp only [manager, m.handleAssignmentMessage_fst, Manager.Clean]
      split
      next accepted => simpa [accepted] using ⟨(m.inverse_applied _).mp, (m.inverse_applied _).mpr⟩
      next ignored => exact ⟨fun _ assign checked => absurd ⟨assign, checked⟩ ignored, fun _ => inverse⟩
    | onLeaderChange leaderID => exact ⟨fun _ => trivial, fun _ => inverse⟩
  · exact Slots.inverse_empty _

theorem partition_listed_twice :
    let m := (manager id).after (newManager 1) [.applyAssignments [⟨"a", "", 0, 1⟩, ⟨"b", "", 0, 1⟩]]
    m.slots.nodeForPartition 0 = "b" ∧ m.slots.partitionsForNode "a" = [0] ∧ ¬ m.slots.Inverse m.numPartitions := by
  intro m
  have node : m.slots.nodeForPartition 0 = "b" := by decide
  have parts : m.slots.partitionsForNode "a" = [0] := by decide
  refine ⟨node, parts, fun inverse => ?_⟩
  have once := inverse 0 (by decide) "a" (by decide)
  exact absurd once (by decide)

end FlowRulZ.Partition
