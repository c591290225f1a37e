import FlowRulZ.Dsl.FanOut
import FlowRulZ.Lib.Table

/-! # The table of a DAG

A table respects a dependency map if its layers cut the nodes into stages and every node
comes after its dependencies.  `topological_sort` never counts an edge, so all nodes become
ready at once and share the first layer.
-/

namespace FlowRulZ

open List

open Interner

namespace Compiler

/-- A table follows a dependency map: its layers are a partition of the nodes, a dependency is in an earlier layer, and
the parents of a node are its dependencies. -/
structure Respects (deps : Deps) (services : ServiceTable) (table : DAGTable) : Prop where
  nodes : (table.nodes.map (·.serviceId)).Perm (deps.keys.map (serviceIdOf services))
  layers : table.layers.flatten.Perm (table.nodes.map (·.serviceId))
  once : table.layers.flatten.Nodup
  earlier : ∀ row ∈ deps, ∀ dep ∈ row.2, ∀ i j : Nat, ∀ layer ∈ table.layers[i]?,
    ∀ later ∈ table.layers[j]?, serviceIdOf services dep ∈ layer → serviceIdOf services row.1 ∈ later → i < j
  parents : ∀ row ∈ deps, ∀ node ∈ table.nodes, node.serviceId = serviceIdOf services row.1 →
    ∀ id, id ∈ node.parentIds ↔ id ∈ row.2.map (serviceIdOf services)

variable {self : Compiler} {deps : Deps} {body : String}

theorem keys_insert (deps : Deps) (name : String) (value : List String) :
    (deps.insert name value).keys = firstUses deps.keys [name] := by
  have same : ∀ row : String × List String, (if row.1 = name then (name, value) else row).1 = row.1 := by
    intro row
    split_ifs with here
    · exact here.symm
    · rfl
  unfold Deps.insert firstUses
  simp only [foldl_cons]
  split_ifs
  · simp only [Deps.keys, map_map]
    exact map_congr_left fun row _ => same row
  · simp [Deps.keys]

theorem keys_orDefault (deps : Deps) (name : String) : (deps.orDefault name).keys = firstUses deps.keys [name] := by
  unfold Deps.orDefault firstUses
  simp only [foldl_cons]
  split_ifs
  · rfl
  · simp [Deps.keys]

theorem nodup_foldl_orDefault (names : List String) (distinct : deps.keys.Nodup) :
    (names.foldl Deps.orDefault deps).keys.Nodup := by
  refine List.foldlRecOn (motive := fun deps : Deps => deps.keys.Nodup) _ _ distinct ?_
  intro deps distinct name _
  rw [keys_orDefault]
  exact nodup_firstUses _ distinct

theorem nodup_dagSegment (distinct : deps.keys.Nodup) (segment : String) : (dagSegment deps segment).keys.Nodup := by
  unfold dagSegment
  dsimp only
  split_ifs
  · exact distinct
  · split
    · rw [keys_insert]
      exact nodup_firstUses _ (nodup_foldl_orDefault _ distinct)
    · rw [keys_orDefault]
      exact nodup_firstUses _ distinct

theorem nodup_dagDeps (body : String) : (dagDeps body).keys.Nodup :=
  List.foldlRecOn (motive := fun deps : Deps => deps.keys.Nodup) _ _ nodup_nil
    fun _ distinct segment _ => nodup_dagSegment distinct segment

theorem get?_of_mem (distinct : deps.keys.Nodup) {row : String × List String}
    (inside : row ∈ deps) : deps.get? row.1 = some row.2 := by
  induction deps with
  | nil => cases inside
  | cons first deps ih =>
    obtain ⟨fresh, distinct⟩ := nodup_cons.mp distinct
    unfold Deps.get?
    rcases mem_cons.mp inside with rfl | inside
    · exact lookup_cons_self
    · have apart : row.1 ≠ first.1 := fun same => fresh (same ▸ mem_map_of_mem inside)
      rw [lookup_cons, beq_false_of_ne apart]
      exact ih distinct inside

/-- What the checks of `compile_dag` leave: some node, and no dependency that is none. -/
theorem checkedDeps_passed (checked : self.checkedDeps body = .ok deps) :
    dagDeps body ≠ [] ∧ ∀ dep ∈ self.dependedUpon (dagDeps body), dep ∈ (dagDeps body).keys := by
  unfold checkedDeps at checked
  split at checked
  · cases checked
  split at checked
  · cases checked
  split at checked
  · cases checked
  rename_i bare
  refine ⟨fun none => bare (isEmpty_iff.mpr none), ?_⟩
  intro dep needed
  by_contra unknown
  have found : ((self.dependedUpon (dagDeps body)).find? (· ∉ (dagDeps body).keys)).isSome :=
    find?_isSome.mpr ⟨dep, needed, decide_eq_true unknown⟩
  obtain ⟨first, found⟩ := Option.isSome_iff_exists.mp found
  rw [found] at checked
  cases checked

theorem mem_dependedUpon {row : String × List String} (inside : row ∈ dagDeps body) {dep : String}
    (needed : dep ∈ row.2) : dep ∈ self.dependedUpon (dagDeps body) := by
  refine mem_flatMap.mpr ⟨row.1, ?_, ?_⟩
  · exact (self.dependencyOrder_perm _).mem_iff.mpr (mem_map_of_mem inside)
  · rw [get?_of_mem (nodup_dagDeps body) inside]
    exact needed

namespace Degrees

def zero (names : List String) : List (String × Nat) := names.map fun name => (name, 0)

@[simp]
theorem map_fst_zero (names : List String) : (zero names).map Prod.fst = names := by
  simp [zero, Function.comp_def]

theorem lookup_zero (names : List String) (name : String) :
    (zero names).lookup name = if name ∈ names then some 0 else none :=
  Table.lookup_map_const names name 0

theorem touch_zero {d : Degrees} {names : List String} (flat : d.inDegree = zero names)
    (name : String) : (d.touch name).inDegree = zero (firstUses names [name]) := by
  unfold touch firstUses
  simp only [flat, map_fst_zero, foldl_cons]
  split_ifs
  · rfl
  · simp [zero]

theorem foldl_touch_zero (node : String) (needed : List String) :
    ∀ {d : Degrees} {names : List String}, d.inDegree = zero names →
      (needed.foldl (fun d dep => (d.touch dep).addEdge dep node) d).inDegree = zero (firstUses names needed) := by
  induction needed with
  | nil => exact fun flat => flat
  | cons dep needed ih => exact fun flat => ih (touch_zero flat dep)

theorem build_zero (deps : Deps) (order : List String) : (build deps order).inDegree =
      zero (firstUses [] (order.flatMap fun node => node :: (deps.get? node).getD [])) := by
  have fold : ∀ (order : List String) (d : Degrees) (names : List String), d.inDegree = zero names →
      (order.foldl (fun d node =>
        ((deps.get? node).getD []).foldl (fun d dep => (d.touch dep).addEdge dep node)
          ((d.touch node).touchAdj node)) d).inDegree =
        zero (firstUses names (order.flatMap fun node => node :: (deps.get? node).getD [])) := by
    intro order
    induction order with
    | nil => exact fun _ _ flat => flat
    | cons node order ih =>
      intro d names flat
      have one : (((d.touch node).touchAdj node)).inDegree = zero (firstUses names [node]) :=
        touch_zero flat node
      rw [foldl_cons, ih _ _ (foldl_touch_zero node _ one), ← firstUses_append, ← firstUses_append]
      rfl
  exact fold order {} [] rfl

theorem foldl_finish_zero (names children : List String) (next : List String) :
    children.foldl finish (zero names, next) = (zero names, next) := by
  apply foldl_fixed'
  intro child
  unfold finish
  rw [lookup_zero]
  split_ifs <;> rfl

theorem layersFrom_zero (adj : List (String × List String)) (fuel : Nat) (names : List String)
    {current : List String} (some : current ≠ []) :
    layersFrom adj (fuel + 1) (zero names) current = [current] := by
  have finished : current.foldl (fun acc node => ((adj.lookup node).getD []).foldl finish acc)
      (zero names, []) = (zero names, []) := by
    apply List.foldl_fixed'
    exact fun node => foldl_finish_zero ..
  simp only [layersFrom, List.isEmpty_iff, some, finished]
  cases fuel <;> rfl

end Degrees

/-- The nodes of a dependency map in the order in which they are entered. -/
def nodeOrder (deps : Deps) : List String := deps.keys.insertionSort (· ≤ ·)

/-- All nodes are in the first layer, whatever depends on what. -/
theorem topologicalSort_eq (distinct : deps.keys.Nodup) (some : deps ≠ [])
    (closed : ∀ row ∈ deps, ∀ dep ∈ row.2, dep ∈ deps.keys) :
    self.topologicalSort deps = [nodeOrder deps] := by
  have names := Degrees.build_zero deps (self.dependencyOrder deps.keys)
  set order := self.dependencyOrder deps.keys
  set entered := firstUses [] (order.flatMap fun node => node :: (deps.get? node).getD [])
  have members : ∀ name, name ∈ entered ↔ name ∈ deps.keys := by
    intro name
    rw [mem_firstUses, mem_flatMap]
    constructor
    · rintro (none | ⟨node, listed, here⟩)
      · cases none
      · have inside : node ∈ deps.keys := (self.dependencyOrder_perm _).mem_iff.mp listed
        rcases mem_cons.mp here with rfl | needed
        · exact inside
        · obtain ⟨row, there, rfl⟩ := mem_map.mp inside
          rw [get?_of_mem distinct there] at needed
          exact closed row there name needed
    · intro inside
      exact .inr ⟨name, (self.dependencyOrder_perm _).mem_iff.mpr inside, mem_cons_self⟩
  have same : entered.Perm deps.keys :=
    (perm_ext_iff_of_nodup (nodup_firstUses _ nodup_nil) distinct).mpr members
  have ready : ((self.degreeOrder entered).filter
      fun node => (Degrees.zero entered).lookup node == .some 0) = self.degreeOrder entered := by
    refine filter_eq_self.mpr fun node listed => ?_
    have inside : node ∈ entered := (self.degreeOrder_perm _).mem_iff.mp listed
    simp [Degrees.lookup_zero, inside]
  have sorted : (self.degreeOrder entered).insertionSort (· ≤ ·) = nodeOrder deps := by
    apply List.Perm.eq_of_sortedLE sortedLE_insertionSort sortedLE_insertionSort
    have unsorted : (self.degreeOrder entered).Perm deps.keys :=
      (self.degreeOrder_perm entered).trans same
    exact (perm_insertionSort _ _).trans (unsorted.trans (perm_insertionSort _ _).symm)
  have filled : nodeOrder deps ≠ [] := by
    intro empty
    have none : deps.keys.length = 0 := by simpa [nodeOrder] using congrArg List.length empty
    exact some (map_eq_nil_iff.mp (length_eq_zero_iff.mp none))
  unfold topologicalSort
  dsimp only
  rw [names, Degrees.map_fst_zero, ready, sorted]
  exact Degrees.layersFrom_zero _ _ entered filled

theorem serviceIdOf_eq {services : ServiceTable} {name : String} (inside : name ∈ services.entries) :
    serviceIdOf services name = UInt16.ofNat (services.entries.idxOf name) := by
  have place : services.entries.idxOf name < services.entries.length := idxOf_lt_length_iff.mpr inside
  have cut : services.entries.idxOf name % 65536 < services.entries.length :=
    lt_of_le_of_lt (Nat.mod_le _ _) place
  unfold serviceIdOf ServiceTable.getByName
  rw [services.synced, if_pos inside]
  simp only [Option.bind_some, ServiceTable.rows, UInt16.toNat_ofNat', getElem?_map,
    getElem?_zipIdx, Nat.reducePow, getElem?_eq_getElem cut, Option.map_some, zero_add]
  exact UInt16.ofNat_mod_size

theorem foldl_dagNode_ids (deps : Deps) (layerIdx : Nat) (layer : List String) :
    ∀ b : DagBuild, ((layer.foldl (dagNode deps layerIdx) b).table.nodes.map (·.serviceId)) =
      b.table.nodes.map (·.serviceId) ++ layer.map (serviceIdOf (layer.foldl (dagNode deps layerIdx) b).services) := by
  induction layer with
  | nil => simp
  | cons name layer ih =>
    intro b
    have inside : name ∈ (b.services.add name).1.entries := mem_add b.services name
    have grows : (b.services.add name).1.entries <+:
        (layer.foldl (dagNode deps layerIdx) (dagNode deps layerIdx b name)).services.entries := by
      rw [foldl_dagNode]
      exact prefix_firstUses layer _
    have number : serviceIdOf (layer.foldl (dagNode deps layerIdx) (dagNode deps layerIdx b name)).services name =
          (b.services.add name).2 := by
      rw [serviceIdOf_eq (grows.subset inside), idxOf_stable inside grows, add_id]
    rw [foldl_cons, ih, map_cons, number]
    simp [dagNode]

theorem foldl_dagNode_layers (deps : Deps) (layerIdx : Nat) (layer : List String) :
    ∀ b : DagBuild, (layer.foldl (dagNode deps layerIdx) b).table.layers = b.table.layers := by
  induction layer with
  | nil => exact fun b => rfl
  | cons name layer ih => exact fun b => ih _

theorem foldl_dagNode_parents (bare : ∀ row ∈ deps, row.2 = []) (layerIdx : Nat)
    (layer : List String) {b : DagBuild} (orphans : ∀ node ∈ b.table.nodes, node.parentIds = []) :
    ∀ node ∈ (layer.foldl (dagNode deps layerIdx) b).table.nodes, node.parentIds = [] := by
  refine List.foldlRecOn (motive := fun b : DagBuild => ∀ node ∈ b.table.nodes, node.parentIds = []) _ _ orphans ?_
  intro b orphans name _ node listed
  rcases mem_append.mp listed with old | new
  · exact orphans node old
  · have none : (deps.get? name).getD [] = [] := by
      cases found : deps.get? name with
      | none => rfl
      | some needed =>
        obtain ⟨before, after, split, -⟩ := lookup_eq_some_iff.mp found
        exact bare (name, needed) (split ▸ mem_append_right _ mem_cons_self)
    rw [mem_singleton.mp new, none]
    rfl

/-- The numbers of the nodes, which are entered behind the services of the plan. -/
def nodeNumbers (services : ServiceTable) (deps : Deps) : List UInt16 :=
  (nodeOrder deps).map fun name =>
    UInt16.ofNat ((firstUses services.entries (nodeOrder deps)).idxOf name)

section

variable {services : ServiceTable} (single : self.topologicalSort deps = [nodeOrder deps])

include single

theorem dagLayers_eq : self.dagLayers services deps = dagLayer deps ⟨services, {}, []⟩ (0, nodeOrder deps) := by
  simp [dagLayers, single]

theorem dagLayers_ids : (nodeOrder deps).map (serviceIdOf (self.dagLayers services deps).services) =
      nodeNumbers services deps := by
  have entries : (self.dagLayers services deps).services.entries = firstUses services.entries (nodeOrder deps) := by
    rw [dagLayers_services, single, flatten_singleton]
  apply map_congr_left
  intro name listed
  rw [serviceIdOf_eq, entries]
  rw [entries, mem_firstUses]
  exact .inr listed

theorem dagTable_layers : (self.dagTable services deps).layers = [nodeNumbers services deps] := by
  rw [← dagLayers_ids single]
  simp [dagTable, dagLayers_eq single, dagLayer, foldl_dagNode_layers]

theorem dagTable_nodes : (self.dagTable services deps).nodes.map (·.serviceId) = nodeNumbers services deps := by
  rw [← dagLayers_ids single]
  simp only [dagTable, dagLayers_eq single, dagLayer, foldl_dagNode_ids]
  rfl

theorem dagTable_parents (bare : ∀ row ∈ deps, row.2 = []) :
    ∀ node ∈ (self.dagTable services deps).nodes, node.parentIds = [] := by
  simp only [dagTable, dagLayers_eq single]
  exact foldl_dagNode_parents bare 0 _ (by simp)

end

/-- The table of a DAG follows the dependencies if and only if there are none, and the nodes have different numbers. -/
theorem compileDag_respects_iff {plan plan' : ExecutionPlan} {dagId : UInt16}
    (compiled : self.compileDag plan body = .ok (plan', dagId)) :
    ∃ table, plan'.dagTables = plan.dagTables ++ [table] ∧
      (Respects (dagDeps body) plan'.services table ↔ (∀ row ∈ dagDeps body, row.2 = []) ∧
          (nodeNumbers plan.services (dagDeps body)).Nodup) := by
  unfold compileDag at compiled
  split at compiled
  · cases compiled
  rename_i deps checked
  obtain ⟨rfl, -⟩ := compiled
  obtain ⟨some, closed⟩ := checkedDeps_passed checked
  rw [checkedDeps_ok checked]
  have known : ∀ row ∈ dagDeps body, ∀ dep ∈ row.2, dep ∈ (dagDeps body).keys :=
    fun row inside dep needed => closed dep (mem_dependedUpon inside needed)
  have single : self.topologicalSort (dagDeps body) = [nodeOrder (dagDeps body)] :=
    topologicalSort_eq (nodup_dagDeps body) some known
  have numbers : (nodeOrder (dagDeps body)).map (serviceIdOf (self.dagLayers plan.services (dagDeps body)).services) =
        nodeNumbers plan.services (dagDeps body) := dagLayers_ids single
  have sorted : (nodeOrder (dagDeps body)).Perm (dagDeps body).keys := perm_insertionSort _ _
  refine ⟨_, rfl, ?_, ?_⟩
  · intro respects
    refine ⟨?_, ?_⟩
    · intro row inside
      by_contra needs
      obtain ⟨dep, needed⟩ := exists_mem_of_ne_nil _ needs
      -- both are in layer 0
      have ofName : ∀ name ∈ (dagDeps body).keys,
          serviceIdOf (self.dagLayers plan.services (dagDeps body)).services name ∈
            nodeNumbers plan.services (dagDeps body) := by
        intro name listed
        rw [← numbers]
        exact mem_map_of_mem (sorted.mem_iff.mpr listed)
      have first : (self.dagTable plan.services (dagDeps body)).layers[0]? =
          .some (nodeNumbers plan.services (dagDeps body)) := by
        rw [dagTable_layers single]
        rfl
      have before := respects.earlier row inside dep needed 0 0 _ first _ first
        (ofName dep (known row inside dep needed)) (ofName row.1 (mem_map_of_mem inside))
      omega
    · have once := respects.once
      rwa [dagTable_layers single, flatten_singleton] at once
  · rintro ⟨bare, distinct⟩
    have flat : (self.dagTable plan.services (dagDeps body)).layers.flatten =
        nodeNumbers plan.services (dagDeps body) := by
      rw [dagTable_layers single, flatten_singleton]
    constructor
    case nodes =>
      rw [dagTable_nodes single, ← numbers]
      exact sorted.map _
    case layers => rw [flat, dagTable_nodes single]
    case once => rwa [flat]
    case earlier =>
      intro row inside dep needed
      rw [bare row inside] at needed
      cases needed
    case parents =>
      intro row inside node listed same id
      rw [dagTable_parents single bare node listed, bare row inside]
      rfl

/-- Two nodes that depend on nothing share a layer, as they should. -/
theorem compileDag_respects_two : ∃ plan table,
    ascii.compileDag (.new "r") "\x7ba:[],b:[]\x7d" = .ok (plan, 0) ∧ plan.dagTables = [table] ∧
      Respects (dagDeps "\x7ba:[],b:[]\x7d") plan.services table := by
  have compiled : ascii.compileDag (.new "r") "\x7ba:[],b:[]\x7d" = .ok (_, 0) := rfl
  obtain ⟨table, last, respects⟩ := compileDag_respects_iff compiled
  exact ⟨_, table, compiled, last, respects.mpr (by decide)⟩

/-- `a` needs `b`, but both are in layer 0, and `a` has no parent. -/
theorem compileDag_ignores_dependency : ∃ plan table,
    ascii.compileDag (.new "r") "\x7ba:[b],b:[]\x7d" = .ok (plan, 0) ∧ plan.dagTables = [table] ∧
      table.layers = [[0, 1]] ∧ table.nodes = [⟨0, 0, []⟩, ⟨1, 0, []⟩] ∧
      ¬ Respects (dagDeps "\x7ba:[b],b:[]\x7d") plan.services table := by
  refine ⟨_, _, rfl, rfl, by decide, by decide, ?_⟩
  intro respects
  have before := respects.earlier ("a", ["b"]) (by decide) "b" (by decide) 0 0 [0, 1] (by decide)
    [0, 1] (by decide) (by decide) (by decide)
  omega

end Compiler

end FlowRulZ
