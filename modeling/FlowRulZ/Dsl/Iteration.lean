import FlowRulZ.Dsl.Cycles
import FlowRulZ.Dsl.ServiceIds

/-! # Compiling with another iteration order

The compiler iterates two hash maps for each DAG.  Another order gives the same plan, except
that the terminal nodes of a table are listed in the order of the map.
-/

namespace FlowRulZ

open List

def ExecutionPlan.withTables (plan : ExecutionPlan) (tables : List DAGTable) : ExecutionPlan :=
  { plan with dagTables := tables }

namespace Compiler

open Interner

def State.withTables (st : State) (tables : List DAGTable) : State := { st with plan := st.plan.withTables tables }

structure SamePlatform (c c' : Compiler) : Prop where
  toLowercase : c'.toLowercase = c.toLowercase
  debugStr : c'.debugStr = c.debugStr

structure SameTable (table table' : DAGTable) : Prop where
  others : table' = { table with terminalNodes := table'.terminalNodes }
  terminal : table'.terminalNodes.Perm table.terminalNodes

variable {self other : Compiler} {deps : Deps} {body : String} {tables : List DAGTable}

variable (self other) in
theorem mem_dependedUpon_iff (deps : Deps) {dep : String} :
    dep ∈ other.dependedUpon deps ↔ dep ∈ self.dependedUpon deps := by
  simp only [dependedUpon, mem_flatMap, (self.dependencyOrder_perm _).mem_iff, (other.dependencyOrder_perm _).mem_iff]

theorem checkedDeps_eq (checked : self.checkedDeps body = .ok deps) : deps = dagDeps body := by
  unfold checkedDeps at checked
  split at checked
  · cases checked
  split at checked
  · cases checked
  split at checked
  · cases checked
  split at checked
  · cases checked
  split at checked
  · cases checked
  · exact (Except.ok.inj checked).symm

structure Checked (deps : Deps) : Prop where
  distinct : deps.keys.Nodup
  filled : deps ≠ []
  closed : ∀ row ∈ deps, ∀ dep ∈ row.2, dep ∈ deps.keys

theorem checked_of_ok (checked : self.checkedDeps body = .ok deps) : Checked deps := by
  rw [checkedDeps_eq checked]
  obtain ⟨filled, known⟩ := checkedDeps_passed checked
  exact ⟨nodup_dagDeps body, filled, fun row inside dep needed => known dep (mem_dependedUpon inside needed)⟩

variable (self other) in
theorem detectCycle_same (checked : Checked deps) : other.detectCycle deps = self.detectCycle deps := by
  have closed := closedDeps_of_rows checked.closed
  rw [Bool.eq_iff_iff, detectCycle_iff other deps closed, detectCycle_iff self deps closed]

variable (other) in
theorem checkedDeps_same (checked : self.checkedDeps body = .ok deps) : other.checkedDeps body = .ok deps := by
  have cycle := detectCycle_same self other (checkedDeps_eq checked ▸ checked_of_ok checked)
  have known := (checkedDeps_passed checked).2
  have found : (other.dependedUpon (dagDeps body)).find? (· ∉ (dagDeps body).keys) = none := by
    rw [find?_eq_none]
    intro dep needed
    simpa using known dep ((mem_dependedUpon_iff self other _).mp needed)
  have found' : (self.dependedUpon (dagDeps body)).find? (· ∉ (dagDeps body).keys) = none := by
    rw [find?_eq_none]
    intro dep needed
    simpa using known dep needed
  unfold checkedDeps at checked ⊢
  rw [found', ← cycle] at checked
  rw [found]
  exact checked

variable (self other) in
theorem topologicalSort_same (checked : Checked deps) : other.topologicalSort deps = self.topologicalSort deps := by
  rw [topologicalSort_eq checked.distinct checked.filled checked.closed,
    topologicalSort_eq checked.distinct checked.filled checked.closed]

variable (self other) in
theorem dagLayers_same (checked : Checked deps) (services : ServiceTable) :
    other.dagLayers services deps = self.dagLayers services deps := by
  rw [dagLayers, topologicalSort_same self other checked]
  rfl

variable (self other) in
theorem dagTable_same (checked : Checked deps) (services : ServiceTable) :
    SameTable (self.dagTable services deps) (other.dagTable services deps) := by
  have layers := dagLayers_same self other checked services
  refine ⟨by simp [dagTable, layers], ?_⟩
  have keep : (fun name => decide (name ∉ other.dependedUpon deps)) = fun name =>
      decide (name ∉ self.dependedUpon deps) := by
    funext name
    simp only [mem_dependedUpon_iff self other]
  simp only [dagTable, layers, keep]
  have orders := (other.dependencyOrder_perm deps.keys).trans (self.dependencyOrder_perm deps.keys).symm
  exact (orders.filter _).map _

variable (other) in
theorem compileDag_same {plan plan₁ : ExecutionPlan} {id : UInt16}
    (compiled : self.compileDag plan body = .ok (plan₁, id)) (same : List.Forall₂ SameTable plan.dagTables tables) :
    ∃ tables₁, other.compileDag (plan.withTables tables) body = .ok (plan₁.withTables tables₁, id) ∧
      List.Forall₂ SameTable plan₁.dagTables tables₁ := by
  unfold compileDag at compiled ⊢
  cases passed : self.checkedDeps body with
  | error e =>
    rw [passed] at compiled
    cases compiled
  | ok deps =>
    have checked := checked_of_ok passed
    rw [passed] at compiled
    rw [checkedDeps_same other passed]
    cases compiled
    refine ⟨tables ++ [other.dagTable plan.services deps], ?_, ?_⟩
    · simp [ExecutionPlan.withTables, dagLayers_same self other checked, same.length_eq]
    · exact rel_append same (.cons (dagTable_same self other checked _) .nil)

variable {st st₁ : State}

variable (tables) in
theorem compileFanOut_same {head : UInt8 → UInt16 → Instruction} {targets : List String}
    (compiled : compileFanOut st head targets = .ok st₁) :
    compileFanOut (st.withTables tables) head targets = .ok (st₁.withTables tables) ∧
      st₁.plan.dagTables = st.plan.dagTables := by
  unfold compileFanOut at compiled ⊢
  split at compiled
  · cases compiled
  next first rest ids =>
    cases compiled
    simp [State.withTables, ExecutionPlan.withTables, ids]

variable (other) in
theorem compileNode_same {node : ASTNode} (compiled : self.compileNode st node = .ok st₁)
    (same : List.Forall₂ SameTable st.plan.dagTables tables) :
    ∃ tables₁, other.compileNode (st.withTables tables) node = .ok (st₁.withTables tables₁) ∧
      List.Forall₂ SameTable st₁.plan.dagTables tables₁ := by
  cases node with
  | parallel targets | emit targets =>
    obtain ⟨compiled', unchanged⟩ := compileFanOut_same tables compiled
    exact ⟨tables, compiled', unchanged ▸ same⟩
  | label name =>
    obtain ⟨absent, rfl⟩ := compileNode_label compiled
    exact ⟨tables, by simp [compileNode, State.withTables, State.push, absent], same⟩
  | dag body =>
    simp only [compileNode] at compiled ⊢
    cases compiledDag : self.compileDag st.plan body with
    | error e => simp [compiledDag] at compiled
    | ok result =>
      simp only [compiledDag, Except.ok.injEq] at compiled
      obtain ⟨tables₁, again, same₁⟩ := compileDag_same other compiledDag same
      subst compiled
      refine ⟨tables₁, ?_, same₁⟩
      simp only [State.withTables, again]
      rfl
  | _ =>
    cases compiled
    exact ⟨tables, rfl, same⟩

variable {nodes : List ASTNode}

variable (other) in
theorem compileNodes_same (compiled : self.compileNodes st nodes = .ok st₁)
    (same : List.Forall₂ SameTable st.plan.dagTables tables) :
    ∃ tables₁, other.compileNodes (st.withTables tables) nodes = .ok (st₁.withTables tables₁) ∧
      List.Forall₂ SameTable st₁.plan.dagTables tables₁ := by
  induction nodes generalizing st tables with
  | nil =>
    cases compiled
    exact ⟨tables, rfl, same⟩
  | cons node nodes ih =>
    obtain ⟨mid, one, rest⟩ := compileNodes_cons compiled
    obtain ⟨tables', one', same'⟩ := compileNode_same other one same
    obtain ⟨tables₁, rest', same₁⟩ := ih rest same'
    refine ⟨tables₁, ?_, same₁⟩
    simp only [compileNodes, one', rest']

theorem foldl_addInstr_withTables (instrs : List Instruction) (plan : ExecutionPlan) :
    instrs.foldl ExecutionPlan.addInstr (plan.withTables tables) =
      (instrs.foldl ExecutionPlan.addInstr plan).withTables tables := by
  exact foldl_hom (ExecutionPlan.withTables · tables) fun _ _ => rfl

variable (tables) in
theorem finish_withTables (schema : Option Schema) (st : State) :
    finish schema (st.withTables tables) = (finish schema st).withTables tables := by
  have attached : attachRetry ((st.plan.withTables tables).withSchema schema) st.instructions st.pendingRetry =
      ((attachRetry (st.plan.withSchema schema) st.instructions st.pendingRetry).1.withTables tables,
        (attachRetry (st.plan.withSchema schema) st.instructions st.pendingRetry).2) := by
    unfold attachRetry
    split
    · rfl
    · split
      · rfl
      · split <;> rfl
  simp only [finish, State.withTables, attached, foldl_addInstr_withTables]
  rfl

theorem finish_dagTables (schema : Option Schema) (st : State) : (finish schema st).dagTables = st.plan.dagTables := by
  have unchanged : st.withTables st.plan.dagTables = st := rfl
  have same := finish_withTables st.plan.dagTables schema st
  rw [unchanged] at same
  rw [same]
  rfl

section

variable (platform : SamePlatform self other)
include platform

theorem compileFields_same (segments : List String) : other.compileFields segments = self.compileFields segments := by
  induction segments with
  | nil => rfl
  | cons segment segments ih => simp only [compileFields_cons, ih, compileField, platform.toLowercase]

theorem debugType_same : other.debugType = self.debugType := by
  funext type
  cases type <;> simp [debugType, platform.debugStr]

theorem checkParts_same (schema : Schema) (form : String) (parts : List String) :
    other.checkParts schema form parts = self.checkParts schema form parts := by
  induction parts with
  | nil => rfl
  | cons part parts ih => simp only [checkParts, ih, debugType_same platform]

theorem typeCheck_same (schema : Schema) (nodes : List ASTNode) :
    other.typeCheck schema nodes = self.typeCheck schema nodes := by
  induction nodes with
  | nil => rfl
  | cons node nodes ih =>
    cases node with
    | gate field op value => simp only [typeCheck, ih, typeCheckGate, debugType_same platform]
    | map expr => simp only [typeCheck, ih, typeCheckMap, checkParts_same platform]
    | _ => exact ih

theorem parsedSchema_same (nodes : List ASTNode) : other.parsedSchema nodes = self.parsedSchema nodes := by
  induction nodes with
  | nil => rfl
  | cons node nodes ih =>
    cases node with
    | schema body => simp only [parsedSchema, compileSchema, compileFields_same platform]
    | _ => exact ih

theorem checkSchema_same (nodes : List ASTNode) : other.checkSchema nodes = self.checkSchema nodes := by
  simp only [checkSchema, parsedSchema_same platform, typeCheck_same platform]

theorem compile_same {ruleId : String} {plan : ExecutionPlan} (compiled : self.compile nodes ruleId = .ok plan) :
    ∃ tables, other.compile nodes ruleId = .ok (plan.withTables tables) ∧
      List.Forall₂ SameTable plan.dagTables tables := by
  unfold compile at compiled ⊢
  rw [checkSchema_same platform]
  cases read : self.checkSchema nodes with
  | error e => simp [read] at compiled
  | ok schema =>
    simp only [read] at compiled
    cases loop : self.compileNodes { plan := .new ruleId } nodes with
    | error e => simp [loop] at compiled
    | ok st =>
      simp only [loop, Except.ok.injEq] at compiled
      obtain ⟨tables, again, same⟩ := compileNodes_same other loop .nil
      have start : State.withTables { plan := .new ruleId } [] = { plan := .new ruleId } := rfl
      rw [start] at again
      subst compiled
      exact ⟨tables, by simp only [again, finish_withTables], finish_dagTables schema st ▸ same⟩

end

def FewTerminals (plan : ExecutionPlan) : Prop :=
  ∀ table ∈ plan.dagTables, table.terminalNodes.length ≤ plan.services.entries.length

theorem dagTable_terminals (checked : Checked deps) (services : ServiceTable) :
    (self.dagTable services deps).terminalNodes.length ≤ (self.dagLayers services deps).services.entries.length := by
  have entries : (self.dagLayers services deps).services.entries = _ := dagLayers_services services deps
  rw [topologicalSort_eq checked.distinct checked.filled checked.closed, flatten_singleton] at entries
  have inside : deps.keys ⊆ (self.dagLayers services deps).services.entries := by
    intro name listed
    rw [entries, mem_firstUses]
    exact .inr ((perm_insertionSort _ _).mem_iff.mpr listed)
  calc (self.dagTable services deps).terminalNodes.length ≤ (self.dependencyOrder deps.keys).length := by
        simp only [dagTable, length_map]
        exact length_filter_le ..
    _ = deps.keys.length := (self.dependencyOrder_perm _).length_eq
    _ ≤ (self.dagLayers services deps).services.entries.length := (checked.distinct.subperm inside).length_le

theorem compileNode_tables {node : ASTNode} (compiled : self.compileNode st node = .ok st₁) :
    st₁.plan.dagTables = st.plan.dagTables ∨
      ∃ deps, Checked deps ∧ st₁.plan.services = (self.dagLayers st.plan.services deps).services ∧
        st₁.plan.dagTables = st.plan.dagTables ++ [self.dagTable st.plan.services deps] := by
  cases node with
  | dag body =>
    obtain ⟨deps, id, passed, rfl⟩ := compileNode_dag compiled
    exact .inr ⟨deps, checked_of_ok passed, rfl, rfl⟩
  | _ => exact .inl ((compileNode_step compiled).tables (by simp))

theorem compileNodes_terminals (compiled : self.compileNodes st nodes = .ok st₁)
    (few : FewTerminals st.plan) : FewTerminals st₁.plan := by
  induction nodes generalizing st with
  | nil =>
    cases compiled
    exact few
  | cons node nodes ih =>
    obtain ⟨mid, one, rest⟩ := compileNodes_cons compiled
    apply ih rest
    have grown : st.plan.services.entries.length ≤ mid.plan.services.entries.length := by
      rw [compileNode_services one]
      exact (prefix_firstUses _ _).length_le
    intro table listed
    rcases compileNode_tables one with same | ⟨deps, checked, services, added⟩
    · exact Nat.le_trans (few table (same ▸ listed)) grown
    · rw [added, mem_append, mem_singleton] at listed
      rcases listed with old | rfl
      · exact Nat.le_trans (few table old) grown
      · rw [services]
        exact dagTable_terminals checked _

theorem compile_terminals {ruleId : String} {plan : ExecutionPlan}
    (compiled : self.compile nodes ruleId = .ok plan) : FewTerminals plan := by
  obtain ⟨schema, last, loop, rfl⟩ := compile_loop compiled
  have few := compileNodes_terminals loop (by simp [FewTerminals, ExecutionPlan.new])
  rw [FewTerminals, finish_dagTables, (finish_frame schema last).1]
  exact few

end Compiler

end FlowRulZ
