import FlowRulZ.Dsl.Schema
import Mathlib.Data.List.Sort
import Mathlib.Data.String.Basic

/-! # Compiling a DAG

The dependency map is a hash map in the source.  It is an association list in
insertion order here, and every place that iterates it goes through the compiler's
iteration order.
-/

namespace FlowRulZ

/-- A hash map from node names to their dependencies. -/
abbrev Deps := List (String × List String)

namespace Deps

def get? (deps : Deps) (name : String) : Option (List String) := List.lookup name deps

def keys (deps : Deps) : List String := deps.map Prod.fst

/-- `HashMap::insert`: the value of a key that is there is replaced. -/
def insert (deps : Deps) (name : String) (value : List String) : Deps :=
  if name ∈ deps.keys then deps.map fun row => if row.1 = name then (name, value) else row
  else deps ++ [(name, value)]

def orDefault (deps : Deps) (name : String) : Deps :=
  if name ∈ deps.keys then deps else deps ++ [(name, [])]

end Deps

namespace Compiler

variable (self : Compiler)

/-- The dependencies of one `node:[a` segment, brackets and blanks stripped. -/
def segmentDeps (depList : String) : List String :=
  let inner := Text.trim (Text.trimEndMatches (Text.trimStartMatches depList '[') ']')
  if inner.isEmpty then []
  else ((Text.split inner ',').map Text.trim).filter (fun s => !s.isEmpty)

/-- One segment between commas; the commas inside brackets split segments too. -/
def dagSegment (deps : Deps) (segment : String) : Deps :=
  let seg := Text.trim segment
  if seg.isEmpty then deps
  else
    match Text.splitFirst seg ':' with
    | some (before, after) =>
      let nodeDeps := segmentDeps (Text.trim after)
      (nodeDeps.foldl Deps.orDefault deps).insert (Text.trim before) nodeDeps
    | none => deps.orDefault seg

/-- The marks of the depth-first search, each map as an association list. -/
structure Marks where
  visited : List (String × Bool)
  inStack : List (String × Bool)

def Marks.enter (m : Marks) (node : String) : Marks :=
  ⟨(node, true) :: m.visited, (node, true) :: m.inStack⟩

def Marks.leave (m : Marks) (node : String) : Marks :=
  ⟨m.visited, (node, false) :: m.inStack⟩

/-- `dfs_cycle`.  Every nested call enters a node that was not visited before, so
    fuel for the number of nodes is enough. -/
def dfsCycle (deps : Deps) : Nat → String → Marks → Bool × Marks
  | 0, _, m => (false, m)
  | fuel + 1, node, m =>
    let visit := fun (acc : Bool × Marks) (child : String) =>
      if acc.1 then acc
      else
        match acc.2.visited.lookup child with
        | none => acc
        | some false => dfsCycle deps fuel child acc.2
        | some true => (acc.2.inStack.lookup child == some true, acc.2)
    let result := ((deps.get? node).getD []).foldl visit (false, m.enter node)
    if result.1 then result else (false, result.2.leave node)

def detectCycle (deps : Deps) : Bool :=
  let order := self.dependencyOrder deps.keys
  let unmarked := order.map fun node => (node, false)
  let visit := fun (acc : Bool × Marks) (node : String) =>
    if acc.1 then acc
    else if acc.2.visited.lookup node == some true then acc
    else dfsCycle deps (deps.length + 1) node acc.2
  (order.foldl visit (false, ⟨unmarked, unmarked⟩)).1

structure Degrees where
  inDegree : List (String × Nat) := []
  adj : List (String × List String) := []

namespace Degrees

def touch (d : Degrees) (name : String) : Degrees :=
  { d with inDegree :=
      if name ∈ d.inDegree.map Prod.fst then d.inDegree else d.inDegree ++ [(name, 0)] }

def addEdge (d : Degrees) (dep node : String) : Degrees :=
  { d with adj :=
      if dep ∈ d.adj.map Prod.fst then
        d.adj.map fun row => if row.1 = dep then (dep, row.2 ++ [node]) else row
      else d.adj ++ [(dep, [node])] }

def touchAdj (d : Degrees) (name : String) : Degrees :=
  { d with adj := if name ∈ d.adj.map Prod.fst then d.adj else d.adj ++ [(name, [])] }

/-- The loop that fills both maps. It enters in-degrees with `or_insert(0)` and never counts an edge. -/
def build (deps : Deps) (order : List String) : Degrees :=
  order.foldl (fun d node =>
    ((deps.get? node).getD []).foldl (fun d dep => (d.touch dep).addEdge dep node) ((d.touch node).touchAdj node)) {}

/-- Count one finished dependency of `child`; a child whose count reaches zero joins the next layer. -/
def finish (acc : List (String × Nat) × List String) (child : String) : List (String × Nat) × List String :=
  match acc.1.lookup child with
  | none => acc
  | some 0 => acc
  | some (deg + 1) =>
    (acc.1.map fun row => if row.1 = child then (child, deg) else row,
      if deg = 0 then acc.2 ++ [child] else acc.2)

/-- The `while` loop over layers; a node joins a layer at most once, so fuel for the number of nodes is enough. -/
def layersFrom (adj : List (String × List String)) : Nat → List (String × Nat) → List String → List (List String)
  | 0, _, _ => []
  | fuel + 1, inDegree, current =>
    if current.isEmpty then []
    else
      let (inDegree, next) := current.foldl (fun acc node =>
        ((adj.lookup node).getD []).foldl finish acc) (inDegree, [])
      current :: layersFrom adj fuel inDegree (next.insertionSort (· ≤ ·))

end Degrees

def topologicalSort (deps : Deps) : List (List String) :=
  let d := Degrees.build deps (self.dependencyOrder deps.keys)
  let ready := (self.degreeOrder (d.inDegree.map Prod.fst)).filter
    fun node => d.inDegree.lookup node == some 0
  Degrees.layersFrom d.adj (d.inDegree.length + 1) d.inDegree (ready.insertionSort (· ≤ ·))

/-- What the loop over layers accumulates: the plan's services, the table, and the service numbers given to nodes so
far. -/
structure DagBuild where
  services : ServiceTable
  table : DAGTable
  nodeSvcIds : List (String × UInt16)

def dagNode (deps : Deps) (layerIdx : Nat) (b : DagBuild) (nodeName : String) : DagBuild :=
  let (services, svcId) := b.services.add nodeName
  let nodeSvcIds := (nodeName, svcId) :: b.nodeSvcIds
  let parentIds := ((deps.get? nodeName).getD []).filterMap fun p => nodeSvcIds.lookup p
  { services := services
    table := { b.table with
      nodes := b.table.nodes ++ [⟨svcId, UInt8.ofNat layerIdx, parentIds⟩] }
    nodeSvcIds := nodeSvcIds }

def serviceIdOf (services : ServiceTable) (name : String) : UInt16 :=
  match services.getByName name with
  | some entry => entry.id
  | none => 0

def dagLayer (deps : Deps) (b : DagBuild) (layer : Nat × List String) : DagBuild :=
  let b := layer.2.foldl (dagNode deps layer.1) b
  { b with table := { b.table with
      layers := b.table.layers ++ [layer.2.map (serviceIdOf b.services)] } }

/-- The dependency map read from the text of a DAG, before it is checked. -/
def dagDeps (body : String) : Deps :=
  (Text.split (Text.trim (Text.trimEndMatches (Text.trimStartMatches body '{') '}')) ',').foldl dagSegment []

def dependedUpon (deps : Deps) : List String :=
  (self.dependencyOrder deps.keys).flatMap fun node => (deps.get? node).getD []

/-- The first half of `compile_dag`: the dependency map, if it passes the checks. -/
def checkedDeps (body : String) : Except CompileError Deps :=
  if body.isEmpty || body == "{}" then .error (.dagEmpty body)
  else if (Text.trim (Text.trimEndMatches (Text.trimStartMatches body '{') '}')).isEmpty then
    .error (.dagEmpty body)
  else if (dagDeps body).isEmpty then .error (.dagEmpty body)
  else
    match (self.dependedUpon (dagDeps body)).find? (· ∉ (dagDeps body).keys) with
    | some dep => .error (.dagUnknownService dep)
    | none =>
      if self.detectCycle (dagDeps body) then .error (.dagCycle body) else .ok (dagDeps body)

def dagLayers (services : ServiceTable) (deps : Deps) : DagBuild :=
  ((self.topologicalSort deps).zipIdx.map Prod.swap).foldl (dagLayer deps) ⟨services, {}, []⟩

/-- The second half: one table built layer by layer, then its terminal nodes. -/
def dagTable (services : ServiceTable) (deps : Deps) : DAGTable :=
  let b := self.dagLayers services deps
  let terminal := (self.dependencyOrder deps.keys).filter (· ∉ self.dependedUpon deps)
  { b.table with terminalNodes := terminal.map (serviceIdOf b.services) }

/-- `compile_dag`: the plan with its services and the new table, and the table's number. -/
def compileDag (plan : ExecutionPlan) (body : String) : Except CompileError (ExecutionPlan × UInt16) :=
  match self.checkedDeps body with
  | .error e => .error e
  | .ok deps =>
    .ok ({ plan with
      services := (self.dagLayers plan.services deps).services
      dagTables := plan.dagTables ++ [self.dagTable plan.services deps] },
      UInt16.ofNat plan.dagTables.length)

end Compiler

end FlowRulZ
