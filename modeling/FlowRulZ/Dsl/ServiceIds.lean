import FlowRulZ.Dsl.DagTable

/-! # The services of a plan's instructions

An instruction holds the id of a service, a fan-out stands for some rows of the service
table, and a DAG has the ids of its nodes in a table of its own.  They are the places of
the names that the rule gives, cut to 16 bits.
-/

namespace FlowRulZ

open List Instruction

open Interner

def idIn (names : List String) (name : String) : UInt16 := UInt16.ofNat (names.idxOf name)

/-- The id of the service that an instruction calls or lists. -/
def Instruction.serviceIds (instr : Instruction) : List UInt16 :=
  match instr.op with
  | .next | .async | .fallback | .svcCall | .svcArg => [instr.a]
  | _ => []

def Instruction.rows (instr : Instruction) : List Nat :=
  match instr.op with
  | .parallel => List.range' instr.b.toNat instr.a.toNat
  | .emit => List.range' instr.b.toNat instr.a.toUInt8.toNat
  | _ => []

/-- The id that a step waits for; for an emit that is its count. -/
def Instruction.awaited (instr : Instruction) : List UInt16 :=
  match instr.op with
  | .next | .async | .emit | .svcCall => [instr.a]
  | _ => []

def ExecutionPlan.dagIds (plan : ExecutionPlan) : List UInt16 :=
  plan.dagTables.flatMap fun table => table.nodes.map (·.serviceId)

def ASTNode.targets : ASTNode → List String
  | .next target | .async target | .fallback target => [target]
  | .parallel targets | .emit targets => targets
  | _ => []

/-- The rows of a fan-out: as many as the count says, from the row of the first target on. -/
def ASTNode.rows (names : List String) : ASTNode → List Nat
  | .parallel targets | .emit targets =>
    List.range' (idIn names (targets.headD "")).toNat (targets.length % 2 ^ 8)
  | _ => []

def ASTNode.awaited (names : List String) : ASTNode → List UInt16
  | .next target | .async target => [idIn names target]
  | .emit targets => [(UInt8.ofNat targets.length).toUInt16]
  | _ => []

def Compiler.dagNames (self : Compiler) : ASTNode → List String
  | .dag body => (self.topologicalSort (dagDeps body)).flatten
  | _ => []

theorem idIn_stable {left right : List String} {name : String} (inside : name ∈ left) (grows : left <+: right) :
    idIn right name = idIn left name := by
  rw [idIn, idxOf_stable inside grows, idIn]

namespace Compiler

variable {self : Compiler} {st st' : State} {node : ASTNode} {nodes : List ASTNode}

theorem namedBy_eq (self : Compiler) (node : ASTNode) : self.namedBy node = node.targets ++ self.dagNames node := by
  cases node <;> simp [namedBy, ASTNode.targets, dagNames]

theorem mem_services (h : self.compileNode st node = .ok st') {name : String} (named : name ∈ self.namedBy node) :
    name ∈ st'.plan.services.entries := by
  rw [compileNode_services h]
  exact (mem_firstUses _ _).mpr (.inr named)

section

variable {β : Type} {f : Instruction → List β} {g : List String → ASTNode → List β}

section

variable (one : ∀ st node st', self.compileNode st node = .ok st' →
  ∃ code, st'.instructions = st.instructions ++ code ∧ code.flatMap f = g st'.plan.services.entries node)
  (stable : ∀ left right node, left <+: right → (∀ name ∈ self.namedBy node, name ∈ left) → g right node = g left node)
include one stable

theorem compileNodes_flatMap (h : self.compileNodes st nodes = .ok st') : st'.instructions.flatMap f =
      st.instructions.flatMap f ++ nodes.flatMap (g st'.plan.services.entries) := by
  induction nodes generalizing st with
  | nil =>
    cases h
    simp
  | cons node nodes ih =>
    obtain ⟨mid, first, rest⟩ := compileNodes_cons h
    obtain ⟨code, grown, read⟩ := one st node mid first
    have later := stable _ _ node (services_grow rest) fun name named => mem_services first named
    rw [ih rest, grown, flatMap_append, read, flatMap_cons, later, append_assoc]

/-- The retry that is attached to the last call changes nothing that is read off the operation and its first two
operands. -/
theorem compile_flatMap {ruleId : String} {plan : ExecutionPlan}
    (retry : ∀ (instr : Instruction) flags c, f { instr with flags, c } = f instr)
    (h : self.compile nodes ruleId = .ok plan) :
    plan.instructions.flatMap f = nodes.flatMap (g plan.services.entries) := by
  obtain ⟨schema, last, loop, rfl⟩ := compile_loop h
  have read := compileNodes_flatMap one stable loop
  rw [(finish_frame schema last).1, finish_instructions schema last (compileNodes_frame loop).instructions]
  rw [flatMap_nil, nil_append] at read
  rcases attachRetry_cases (last.plan.withSchema schema) last.instructions last.pendingRetry with
    ⟨same, -⟩ | ⟨cfg, init, final, -, split, -, attached⟩
  · rw [same, read]
  · rw [attached, ← read, split, flatMap_append, flatMap_append, flatMap_singleton, flatMap_singleton, retry]

end

end

theorem compileFanOut_flatMap {head : UInt8 → UInt16 → Instruction} {targets : List String}
    (h : compileFanOut st head targets = .ok st') :
    ∃ first rest, targets = first :: rest ∧ st'.instructions = st.instructions ++
        head (UInt8.ofNat targets.length) (idIn st'.plan.services.entries first) ::
          targets.map fun name => svcArg (idIn st'.plan.services.entries name) := by
  have ids := addAll_ids targets st.plan.services
  cases targets with
  | nil => cases h
  | cons first rest =>
    refine ⟨first, rest, rfl, ?_⟩
    unfold compileFanOut at h
    rw [ids, map_cons] at h
    simp only [Except.ok.injEq] at h
    subst h
    simp [idIn, Function.comp_def]

theorem compileNode_uses (h : self.compileNode st node = .ok st') : ∃ code, st'.instructions = st.instructions ++ code ∧
      code.flatMap serviceIds = node.targets.map (idIn st'.plan.services.entries) ∧
      code.flatMap rows = node.rows st'.plan.services.entries ∧
      code.flatMap awaited = node.awaited st'.plan.services.entries := by
  cases node with
  | parallel targets | emit targets =>
    obtain ⟨first, rest, rfl, code⟩ := compileFanOut_flatMap h
    refine ⟨_, code, ?_, ?_, ?_⟩
    · rw [flatMap_cons, flatMap_map]
      exact (map_eq_flatMap).symm
    · simp [rows, parallel, emit, svcArg, ASTNode.rows]
    · simp [awaited, parallel, emit, svcArg, ASTNode.awaited]
  | next target | async target =>
    cases h
    have id := congrArg (fun id => [id]) (add_id st.plan.services target)
    exact ⟨[_], rfl, id, rfl, id⟩
  | fallback target =>
    cases h
    exact ⟨[_], rfl, congrArg (fun id => [id]) (add_id st.plan.services target), rfl, rfl⟩
  | label name =>
    obtain ⟨-, rfl⟩ := compileNode_label h
    exact ⟨[.label], rfl, rfl, rfl, rfl⟩
  | dag body =>
    obtain ⟨deps, id, -, rfl⟩ := compileNode_dag h
    exact ⟨[.dag id], rfl, rfl, rfl, rfl⟩
  | jmp target | gate field op value =>
    cases h
    exact ⟨[_, _], append_assoc _ _ _, rfl, rfl, rfl⟩
  | timeout ms | retry count strategy fixedMs | pipe =>
    cases h
    exact ⟨[], (append_nil _).symm, rfl, rfl, rfl⟩
  | _ =>
    cases h
    exact ⟨[_], rfl, rfl, rfl, rfl⟩

variable {ruleId : String} {plan : ExecutionPlan}

section

variable (h : self.compile nodes ruleId = .ok plan)
include h

/-- The instructions of a plan hold the ids of the services that the rule names. -/
theorem compile_serviceIds : plan.instructions.flatMap serviceIds =
      (nodes.flatMap ASTNode.targets).map (idIn plan.services.entries) := by
  rw [map_flatMap]
  refine compile_flatMap (g := fun names node => node.targets.map (idIn names)) ?_ ?_ ?_ h
  · intro st node st' compiled
    obtain ⟨code, grown, ids, -⟩ := compileNode_uses compiled
    exact ⟨code, grown, ids⟩
  · intro left right node grows known
    refine map_congr_left fun name listed => idIn_stable (known name ?_) grows
    rw [namedBy_eq]
    exact mem_append_left _ listed
  · exact fun instr flags c => rfl

theorem compile_rows : plan.instructions.flatMap rows = nodes.flatMap (ASTNode.rows plan.services.entries) := by
  refine compile_flatMap (g := ASTNode.rows) ?_ ?_ ?_ h
  · intro st node st' compiled
    obtain ⟨code, grown, -, rows, -⟩ := compileNode_uses compiled
    exact ⟨code, grown, rows⟩
  · intro left right node grows known
    have fanOut (targets : List String) (listed : ∀ name ∈ targets, name ∈ left) :
        List.range' (idIn right (targets.headD "")).toNat (targets.length % 2 ^ 8) =
          List.range' (idIn left (targets.headD "")).toNat (targets.length % 2 ^ 8) := by
      cases targets with
      | nil => rfl
      | cons first rest => rw [headD_cons, idIn_stable (listed first mem_cons_self) grows]
    cases node with
    | parallel targets | emit targets => exact fanOut targets known
    | _ => rfl
  · exact fun instr flags c => rfl

theorem compile_awaited :
    plan.instructions.flatMap awaited = nodes.flatMap (ASTNode.awaited plan.services.entries) := by
  refine compile_flatMap (g := ASTNode.awaited) ?_ ?_ ?_ h
  · intro st node st' compiled
    obtain ⟨code, grown, -, -, ids⟩ := compileNode_uses compiled
    exact ⟨code, grown, ids⟩
  · intro left right node grows known
    cases node with
    | next target | async target =>
      exact congrArg (fun id => [id]) (idIn_stable (known target (mem_singleton_self target)) grows)
    | _ => rfl
  · exact fun instr flags c => rfl

end

theorem foldl_dagLayer_ids (deps : Deps) (layers : List (Nat × List String)) :
    ∀ b : DagBuild, (layers.foldl (dagLayer deps) b).table.nodes.map (·.serviceId) = b.table.nodes.map (·.serviceId) ++
        (layers.flatMap Prod.snd).map (idIn (layers.foldl (dagLayer deps) b).services.entries) := by
  induction layers with
  | nil => simp
  | cons layer layers ih =>
    intro b
    have listed (name : String) (there : name ∈ layer.2) : name ∈ (dagLayer deps b layer).services.entries := by
      rw [dagLayer, foldl_dagNode]
      exact (mem_firstUses _ _).mpr (.inr there)
    have one : (dagLayer deps b layer).table.nodes.map (·.serviceId) =
        b.table.nodes.map (·.serviceId) ++ layer.2.map (idIn (dagLayer deps b layer).services.entries) := by
      refine (foldl_dagNode_ids deps layer.1 layer.2 b).trans (congrArg _ (map_congr_left ?_))
      exact fun name there => serviceIdOf_eq (listed name there)
    have grows : (dagLayer deps b layer).services.entries <+:
        (layers.foldl (dagLayer deps) (dagLayer deps b layer)).services.entries := by
      rw [foldl_dagLayer]
      exact prefix_firstUses _ _
    have kept : layer.2.map (idIn (layers.foldl (dagLayer deps) (dagLayer deps b layer)).services.entries) =
        layer.2.map (idIn (dagLayer deps b layer).services.entries) :=
      map_congr_left fun name there => idIn_stable (listed name there) grows
    rw [foldl_cons, ih, one, flatMap_cons, map_append, append_assoc, kept]

theorem compileNode_dagIds (h : self.compileNode st node = .ok st') :
    st'.plan.dagIds = st.plan.dagIds ++ (self.dagNames node).map (idIn st'.plan.services.entries) := by
  cases node with
  | dag body =>
    obtain ⟨deps, id, checked, rfl⟩ := compileNode_dag h
    rw [checkedDeps_ok checked]
    refine (flatMap_append).trans (congrArg _ ?_)
    rw [flatMap_singleton]
    refine (foldl_dagLayer_ids ..).trans ?_
    rw [numbered_names]
    rfl
  | _ =>
    rw [ExecutionPlan.dagIds, (compileNode_step h).tables (by simp)]
    exact (append_nil _).symm

theorem compileNodes_dagIds (h : self.compileNodes st nodes = .ok st') :
    st'.plan.dagIds = st.plan.dagIds ++ (nodes.flatMap self.dagNames).map (idIn st'.plan.services.entries) := by
  induction nodes generalizing st with
  | nil =>
    cases h
    exact (append_nil _).symm
  | cons node nodes ih =>
    obtain ⟨mid, first, rest⟩ := compileNodes_cons h
    have kept : (self.dagNames node).map (idIn st'.plan.services.entries) =
        (self.dagNames node).map (idIn mid.plan.services.entries) := by
      refine map_congr_left fun name there => idIn_stable (mem_services first ?_) (services_grow rest)
      rw [namedBy_eq]
      exact mem_append_right _ there
    rw [ih rest, compileNode_dagIds first, flatMap_cons, map_append, append_assoc, kept]

theorem finish_dagIds (schema : Option Schema) (st : State) : (finish schema st).dagIds = st.plan.dagIds := by
  obtain ⟨_, _, _, equal⟩ := finish_eq schema st
  rw [equal]
  rfl

theorem compile_dagIds (h : self.compile nodes ruleId = .ok plan) :
    plan.dagIds = (nodes.flatMap self.dagNames).map (idIn plan.services.entries) := by
  obtain ⟨schema, last, loop, rfl⟩ := compile_loop h
  rw [finish_dagIds, compileNodes_dagIds loop, (finish_frame schema last).1]
  rfl

end Compiler

end FlowRulZ
