import FlowRulZ.Dsl.Dag
import FlowRulZ.Lib.DepthFirst
import FlowRulZ.Lib.Table

/-! # Cycles of a dependency map

`detect_cycle` is a depth-first search with its marks in two hash maps.  When every dependency is
a node, it finds a cycle if and only if there is one, in whatever order the map is iterated.
-/

namespace FlowRulZ.Compiler

open List DepthFirst

def dependencies (deps : Deps) (node : String) : List String := (deps.get? node).getD []

def ClosedDeps (deps : Deps) : Prop := ∀ node, ∀ dep ∈ dependencies deps node, dep ∈ deps.keys

def Marks.read (m : Marks) : DepthFirst.Marks String :=
  ⟨fun node => m.visited.lookup node == some true, fun node => m.inStack.lookup node == some true⟩

def Marks.Total (deps : Deps) (m : Marks) : Prop := ∀ node ∈ deps.keys, ∃ seen, m.visited.lookup node = some seen

section

variable {deps : Deps} {m : Marks} {node : String}

theorem marked_cons (marks : List (String × Bool)) (node : String) (mark : Bool) :
    (fun other => List.lookup other ((node, mark) :: marks) == some true) =
      Function.update (fun other => marks.lookup other == some true) node mark := by
  funext other
  by_cases same : other = node
  · subst same
    rw [lookup_cons_self, Function.update_self]
    cases mark <;> rfl
  · rw [lookup_cons, beq_false_of_ne same, Function.update_of_ne same]

theorem read_enter : (m.enter node).read = m.read.enter node := by
  simp only [Marks.read, Marks.enter, DepthFirst.Marks.enter, marked_cons]

theorem read_leave : (m.leave node).read = m.read.leave node := by
  simp only [Marks.read, Marks.leave, DepthFirst.Marks.leave, marked_cons]

theorem Marks.Total.enter (total : m.Total deps) : (m.enter node).Total deps := by
  intro other inside
  by_cases same : other = node
  · subst same
    exact ⟨true, lookup_cons_self⟩
  · obtain ⟨seen, found⟩ := total other inside
    refine ⟨seen, ?_⟩
    rw [Marks.enter, lookup_cons, beq_false_of_ne same]
    exact found

/-- A search with hash maps and the search that it stands for. -/
def Refines (deps : Deps) (result : Bool × Marks) (result' : Bool × DepthFirst.Marks String) : Prop :=
  result' = (result.1, result.2.read) ∧ result.2.Total deps

theorem visit_refines {fuel : Nat} (searches : ∀ {node m}, m.Total deps →
      Refines deps (dfsCycle deps fuel node m) (search (dependencies deps) fuel node m.read))
    {children : List String} (known : ∀ child ∈ children, child ∈ deps.keys)
    {found : Bool × Marks} {found' : Bool × DepthFirst.Marks String} (refines : Refines deps found found') :
    Refines deps (children.foldl (fun acc child =>
        if acc.1 then acc
        else
          match acc.2.visited.lookup child with
          | none => acc
          | some false => dfsCycle deps fuel child acc.2
          | some true => (acc.2.inStack.lookup child == some true, acc.2)) found)
      (children.foldl (visit (search (dependencies deps) fuel)) found') := by
  induction children generalizing found found' with
  | nil => exact refines
  | cons child children ih =>
    rw [forall_mem_cons] at known
    apply ih known.2
    obtain ⟨rfl, total⟩ := refines
    obtain ⟨cycle, m⟩ := found
    cases cycle with
    | true => exact ⟨rfl, total⟩
    | false =>
      obtain ⟨seen, lookup⟩ := total child known.1
      have marked : m.read.visited child = seen := by
        simp only [Marks.read, lookup]
        cases seen <;> rfl
      simp only [visit, lookup, marked]
      cases seen with
      | true => exact ⟨rfl, total⟩
      | false => exact searches total

theorem dfsCycle_refines (closed : ClosedDeps deps) (fuel : Nat) : ∀ {node m}, m.Total deps →
    Refines deps (dfsCycle deps fuel node m) (search (dependencies deps) fuel node m.read) := by
  induction fuel with
  | zero => exact fun total => ⟨rfl, total⟩
  | succ fuel ih =>
    intro node m total
    have entered : Refines deps (false, m.enter node) (false, m.read.enter node) :=
      ⟨by rw [read_enter], total.enter⟩
    obtain ⟨same, total'⟩ := visit_refines ih (closed node) entered
    rw [dfsCycle, search, same, show (deps.get? node).getD [] = dependencies deps node from rfl]
    generalize List.foldl _ (false, m.enter node) (dependencies deps node) = result at total' ⊢
    obtain ⟨cycle, m'⟩ := result
    cases cycle with
    | true => exact ⟨rfl, total'⟩
    | false => exact ⟨Prod.ext rfl read_leave.symm, total'⟩

theorem row_of_dependencies {node dep : String} (edge : dep ∈ dependencies deps node) :
    ∃ value, (node, value) ∈ deps ∧ dep ∈ value := by
  unfold dependencies Deps.get? at edge
  cases found : deps.lookup node with
  | none =>
    rw [found] at edge
    cases edge
  | some value =>
    rw [found] at edge
    obtain ⟨before, after, split, -⟩ := lookup_eq_some_iff.mp found
    exact ⟨value, split ▸ mem_append_right _ mem_cons_self, edge⟩

theorem closedDeps_of_rows (rows : ∀ row ∈ deps, ∀ dep ∈ row.2, dep ∈ deps.keys) : ClosedDeps deps := by
  intro node dep edge
  obtain ⟨value, member, inside⟩ := row_of_dependencies edge
  exact rows _ member dep inside

theorem goOn_refines (closed : ClosedDeps deps) {fuel : Nat} (order : List String) {found : Bool × Marks}
    {found' : Bool × DepthFirst.Marks String} (refines : Refines deps found found') :
    Refines deps (order.foldl (fun acc node =>
        if acc.1 then acc
        else if acc.2.visited.lookup node == some true then acc
        else dfsCycle deps fuel node acc.2) found)
      (order.foldl (goOn (dependencies deps) fuel) found') := by
  induction order generalizing found found' with
  | nil => exact refines
  | cons node order ih =>
    apply ih
    obtain ⟨rfl, total⟩ := refines
    obtain ⟨cycle, m⟩ := found
    cases cycle with
    | true => exact ⟨rfl, total⟩
    | false =>
      have same : m.read.visited node = (m.visited.lookup node == some true) := rfl
      simp only [goOn, same]
      cases m.visited.lookup node == some true with
      | true => exact ⟨rfl, total⟩
      | false => exact dfsCycle_refines closed fuel total


end

abbrev DependsOn (deps : Deps) : String → String → Prop := DepthFirst.Edge (dependencies deps)

theorem detectCycle_refines (self : Compiler) {deps : Deps} (closed : ClosedDeps deps) : self.detectCycle deps =
      (detect (dependencies deps) (deps.length + 1) (self.dependencyOrder deps.keys)).1 := by
  have perm := self.dependencyOrder_perm deps.keys
  have start : Refines deps (false, ⟨(self.dependencyOrder deps.keys).map fun node => (node, false),
      (self.dependencyOrder deps.keys).map fun node => (node, false)⟩)
      (false, ⟨fun _ => false, fun _ => false⟩) := by
    constructor
    · have unmarked : (fun _ : String => false) = fun node =>
          ((self.dependencyOrder deps.keys).map fun node => (node, false)).lookup node == some true := by
        funext node
        rw [Table.lookup_map_const]
        split <;> rfl
      simp only [Marks.read, ← unmarked]
    · intro node inside
      refine ⟨false, ?_⟩
      rw [Table.lookup_map_const, if_pos (perm.mem_iff.mpr inside)]
  rw [detect, (goOn_refines closed _ start).1]
  rfl

/-- A cycle is detected if and only if some node reaches itself through dependencies, for every order in which the map
is iterated. -/
theorem detectCycle_iff (self : Compiler) (deps : Deps) (closed : ClosedDeps deps) :
    self.detectCycle deps = true ↔ ∃ node, Relation.TransGen (DependsOn deps) node node := by
  have perm := self.dependencyOrder_perm deps.keys
  rw [detectCycle_refines self closed]
  refine detect_iff (fun node dep edge => ⟨?_, ?_⟩) ?_
  · obtain ⟨value, member, -⟩ := row_of_dependencies edge
    exact perm.mem_iff.mpr (mem_map_of_mem member)
  · exact perm.mem_iff.mpr (closed node dep edge)
  · rw [perm.length_eq, Deps.keys, length_map]
    exact Nat.le_succ _

theorem detectCycle_mutual : ascii.detectCycle [("a", ["b", "c"]), ("b", ["c"]), ("c", ["b"])] = true ∧
      ∃ node, Relation.TransGen (DependsOn [("a", ["b", "c"]), ("b", ["c"]), ("c", ["b"])]) node node := by
  have found : ascii.detectCycle [("a", ["b", "c"]), ("b", ["c"]), ("c", ["b"])] = true := by decide
  exact ⟨found, (detectCycle_iff ascii _ (closedDeps_of_rows (by decide))).mp found⟩

end FlowRulZ.Compiler
