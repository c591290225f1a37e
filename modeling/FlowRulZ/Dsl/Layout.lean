import FlowRulZ.Dsl.Compiler
import Mathlib.Tactic.Cases

/-! # Where a node's instructions are

Every node emits a fixed shape of opcodes: nothing, one instruction, or a head
followed by arguments the machine steps over.  So the position of a node's code is
determined by the nodes before it, and compiled code can be cut at any node.
-/

open List

namespace FlowRulZ

def ASTNode.ops : ASTNode → List OpCode
  | .next _ => [.next]
  | .async _ => [.async]
  | .parallel ts => .parallel :: List.replicate ts.length .svcArg
  | .collect => [.collect]
  | .fallback _ => [.fallback]
  | .gate .. => [.gate, .jumpOffset]
  | .split _ | .key _ => [.key]
  | .map _ => [.map]
  | .emit ts => .emit :: List.replicate ts.length .svcArg
  | .drop => [.drop]
  | .buffer _ => [.buffer]
  | .retry .. | .timeout _ | .pipe => []
  | .chunk .. => [.chunk]
  | .dag _ => [.dag]
  | .schema _ => [.typeGuard]
  | .label _ => [.label]
  | .jmp _ => [.jmp, .jumpOffset]
  | .delay _ => [.delay]

def codeLen (nodes : List ASTNode) : Nat := (nodes.flatMap ASTNode.ops).length

@[simp] theorem codeLen_nil : codeLen [] = 0 := rfl

@[simp] theorem codeLen_cons (node : ASTNode) (rest : List ASTNode) :
    codeLen (node :: rest) = node.ops.length + codeLen rest := by
  simp [codeLen]

@[simp] theorem codeLen_append (left right : List ASTNode) :
    codeLen (left ++ right) = codeLen left + codeLen right := by
  simp [codeLen]

end FlowRulZ

namespace FlowRulZ.Compiler

variable {self : Compiler} {st st' : State} {node : ASTNode} {nodes : List ASTNode}

theorem compileFanOut_ok {head : UInt8 → UInt16 → Instruction} {targets : List String}
    (h : compileFanOut st head targets = .ok st') :
    ∃ first rest, (st.plan.services.addAll targets).2 = first :: rest ∧ st' = { st with
        plan := { st.plan with services := (st.plan.services.addAll targets).1 }
        instructions := st.instructions ++
          head (UInt8.ofNat (first :: rest).length) first :: (first :: rest).map Instruction.svcArg } := by
  unfold compileFanOut at h
  split at h
  · cases h
  next first rest resolved => exact ⟨first, rest, resolved, (Except.ok.inj h).symm⟩

theorem compileNode_label {name : String} (h : self.compileNode st (.label name) = .ok st') :
    st.labels.lookup name = none ∧
      st' = { st with labels := (name, st.instructions.length) :: st.labels }.push .label := by
  simp only [compileNode] at h
  split at h
  · cases h
  next absent => exact ⟨Option.not_isSome_iff_eq_none.mp absent, (Except.ok.inj h).symm⟩

theorem compileNode_dag {body : String} (h : self.compileNode st (.dag body) = .ok st') :
    ∃ deps id, self.checkedDeps body = .ok deps ∧ st' = { st with plan := { st.plan with
        services := (self.dagLayers st.plan.services deps).services
        dagTables := st.plan.dagTables ++ [self.dagTable st.plan.services deps] } }.push (.dag id) := by
  simp only [compileNode, compileDag] at h
  cases passed : self.checkedDeps body with
  | error e => simp [passed] at h
  | ok deps =>
    simp only [passed, Except.ok.injEq] at h
    exact ⟨deps, _, rfl, h.symm⟩

theorem compileFanOut_code {head : UInt8 → UInt16 → Instruction} {op : OpCode}
    {targets : List String} (headOp : ∀ count first, (head count first).op = op)
    (h : compileFanOut st head targets = .ok st') :
    ∃ code, st'.instructions = st.instructions ++ code ∧
      code.map (·.op) = op :: List.replicate targets.length .svcArg := by
  have len := Interner.addAll_length targets st.plan.services
  obtain ⟨first, rest, resolved, rfl⟩ := compileFanOut_ok h
  rw [resolved] at len
  refine ⟨_, rfl, ?_⟩
  rw [← len]
  simp [headOp, Function.comp_def, Instruction.svcArg, map_const', replicate_succ]

theorem compileNode_code (h : self.compileNode st node = .ok st') :
    ∃ code, st'.instructions = st.instructions ++ code ∧ code.map (·.op) = node.ops := by
  cases node with
  | parallel targets => exact compileFanOut_code (fun _ _ => rfl) h
  | emit targets => exact compileFanOut_code (fun _ _ => rfl) h
  | label name =>
    obtain ⟨-, rfl⟩ := compileNode_label h
    exact ⟨[.label], rfl, rfl⟩
  | dag body =>
    obtain ⟨-, id, -, rfl⟩ := compileNode_dag h
    exact ⟨[.dag id], rfl, rfl⟩
  | jmp target | gate field op value =>
    cases h
    exact ⟨[_, _], append_assoc _ _ _, rfl⟩
  | timeout ms | retry count strategy fixedMs | pipe =>
    cases h
    exact ⟨[], (append_nil _).symm, rfl⟩
  | _ =>
    cases h
    exact ⟨[_], rfl, rfl⟩

theorem compileNode_length (h : self.compileNode st node = .ok st') :
    st'.instructions.length = st.instructions.length + node.ops.length := by
  obtain ⟨code, equal, shape⟩ := compileNode_code h
  rw [equal, length_append, ← shape, length_map]

theorem compileNodes_cons (h : self.compileNodes st (node :: nodes) = .ok st') :
    ∃ mid, self.compileNode st node = .ok mid ∧ self.compileNodes mid nodes = .ok st' := by
  simp only [compileNodes] at h
  split at h
  · cases h
  · exact ⟨_, ‹_›, h⟩

theorem compileNodes_append {left right : List ASTNode} (h : self.compileNodes st (left ++ right) = .ok st') :
    ∃ mid, self.compileNodes st left = .ok mid ∧ self.compileNodes mid right = .ok st' := by
  induction left generalizing st with
  | nil => exact ⟨st, rfl, h⟩
  | cons node left ih =>
    obtain ⟨next, one, rest⟩ := compileNodes_cons h
    obtain ⟨mid, before, after⟩ := ih rest
    refine ⟨mid, ?_, after⟩
    simp only [compileNodes, one, before]

theorem compileNodes_join {left right : List ASTNode} {mid : State} (first : self.compileNodes st left = .ok mid) :
    self.compileNodes st (left ++ right) = self.compileNodes mid right := by
  induction left generalizing st with
  | nil => cases first; rfl
  | cons node left ih =>
    obtain ⟨next, one, rest⟩ := compileNodes_cons first
    simp only [cons_append, compileNodes, one, ih rest]

theorem compileNodes_at {pre post : List ASTNode} (h : self.compileNodes st (pre ++ node :: post) = .ok st') :
    ∃ before after, self.compileNodes st pre = .ok before ∧
      self.compileNode before node = .ok after ∧ self.compileNodes after post = .ok st' := by
  obtain ⟨before, first, rest⟩ := compileNodes_append h
  obtain ⟨after, one, last⟩ := compileNodes_cons rest
  exact ⟨before, after, first, one, last⟩

section

variable (h : self.compileNodes st nodes = .ok st')
include h

theorem compileNodes_code : ∃ code, st'.instructions = st.instructions ++ code ∧
      code.map (·.op) = nodes.flatMap ASTNode.ops := by
  induction nodes generalizing st with
  | nil => cases h; exact ⟨[], by simp, rfl⟩
  | cons node nodes ih =>
    obtain ⟨mid, one, rest⟩ := compileNodes_cons h
    obtain ⟨first, grown, shape⟩ := compileNode_code one
    obtain ⟨more, final, shapes⟩ := ih rest
    refine ⟨first ++ more, ?_, ?_⟩
    · rw [final, grown, append_assoc]
    · rw [map_append, shape, shapes, flatMap_cons]

theorem compileNodes_length : st'.instructions.length = st.instructions.length + codeLen nodes := by
  obtain ⟨code, equal, shape⟩ := compileNodes_code h
  rw [equal, length_append, codeLen, ← shape, length_map]

theorem compileNodes_keeps {k : Nat} {instr : Instruction} (here : st.instructions[k]? = some instr) :
    st'.instructions[k]? = some instr := by
  obtain ⟨code, equal, -⟩ := compileNodes_code h
  have inside : k < st.instructions.length := (List.getElem?_eq_some_iff.mp here).1
  rw [equal, getElem?_append_left inside, here]

end

variable {plan : ExecutionPlan}

theorem compile_loop {ruleId : String} (h : self.compile nodes ruleId = .ok plan) :
    ∃ schema last, self.compileNodes { plan := .new ruleId } nodes = .ok last ∧
      plan = finish schema last := by
  unfold compile at h
  split at h
  · cases h
  · split at h
    · cases h
    · cases h
      exact ⟨_, _, ‹_›, rfl⟩

structure Frame (before after : ExecutionPlan) : Prop where
  instructions : after.instructions = before.instructions
  retryConfigs : after.retryConfigs = before.retryConfigs
  version : after.version = before.version

/-- What a node does to the state, its code and its services apart. -/
structure NodeStep (st : State) (node : ASTNode) (st' : State) : Prop where
  frame : Frame st.plan st'.plan
  timeout : st'.pendingTimeoutMs.getD 0 =
    if node.isService then 0 else (timeoutOf node).getD (st.pendingTimeoutMs.getD 0)
  retry : st'.pendingRetry = match node with
    | .retry count strategy fixedMs => some (retryConfig count strategy fixedMs)
    | _ => st.pendingRetry
  labels : (∀ name, node ≠ .label name) → st'.labels = st.labels
  tables : (∀ body, node ≠ .dag body) → st'.plan.dagTables = st.plan.dagTables

theorem compileNode_step (h : self.compileNode st node = .ok st') : NodeStep st node st' := by
  cases node with
  | parallel targets | emit targets =>
    obtain ⟨first, rest, -, rfl⟩ := compileFanOut_ok h
    exact ⟨⟨rfl, rfl, rfl⟩, rfl, rfl, fun _ => rfl, fun _ => rfl⟩
  | label name =>
    obtain ⟨-, rfl⟩ := compileNode_label h
    exact ⟨⟨rfl, rfl, rfl⟩, rfl, rfl, fun other => absurd rfl (other name), fun _ => rfl⟩
  | dag body =>
    obtain ⟨deps, id, -, rfl⟩ := compileNode_dag h
    exact ⟨⟨rfl, rfl, rfl⟩, rfl, rfl, fun _ => rfl, fun other => absurd rfl (other body)⟩
  | _ =>
    cases h
    exact ⟨⟨rfl, rfl, rfl⟩, rfl, rfl, fun _ => rfl, fun _ => rfl⟩

theorem compileNodes_frame (h : self.compileNodes st nodes = .ok st') : Frame st.plan st'.plan := by
  induction nodes generalizing st with
  | nil => cases h; exact ⟨rfl, rfl, rfl⟩
  | cons node nodes ih =>
    obtain ⟨mid, one, rest⟩ := compileNodes_cons h
    have first := (compileNode_step one).frame
    have later := ih rest
    exact ⟨later.instructions.trans first.instructions,
      later.retryConfigs.trans first.retryConfigs, later.version.trans first.version⟩

/-- A pending retry does nothing, or it is written over flags and operand `c` of a service call that is the last
instruction. -/
theorem attachRetry_cases (plan : ExecutionPlan) (instrs : List Instruction) (pending : Option RetryConfig) :
    (attachRetry plan instrs pending = (plan, instrs) ∧
      (pending = none ∨ ∀ last ∈ instrs.getLast?, last.op ≠ .next ∧ last.op ≠ .async)) ∨
    ∃ cfg init last, pending = some cfg ∧ instrs = init ++ [last] ∧ (last.op = .next ∨ last.op = .async) ∧
      attachRetry plan instrs pending = ({ plan with retryConfigs := plan.retryConfigs ++ [cfg] },
          init ++ [{ last with
            flags := last.flags ||| 0x01
            c := UInt16.ofNat plan.retryConfigs.length }]) := by
  cases pending with
  | none => exact .inl ⟨rfl, .inl rfl⟩
  | some cfg =>
    rcases eq_nil_or_concat instrs with rfl | ⟨init, last, rfl⟩
    · exact .inl ⟨rfl, .inr (by simp)⟩
    · by_cases service : last.op = .next ∨ last.op = .async
      · refine .inr ⟨cfg, init, last, rfl, by simp, service, ?_⟩
        simp [attachRetry, service]
      · refine .inl ⟨by simp [attachRetry, service], .inr ?_⟩
        simpa [not_or] using service

theorem attachRetry_append {front code : List Instruction} (some : code ≠ []) (retry : Option RetryConfig) :
    attachRetry plan (front ++ code) retry =
      ((attachRetry plan code retry).1, front ++ (attachRetry plan code retry).2) := by
  cases retry with
  | none => rfl
  | some cfg =>
    obtain ⟨init, last, rfl⟩ := (eq_nil_or_concat code).resolve_left some
    by_cases service : last.op = .next ∨ last.op = .async <;>
      simp [attachRetry, ← append_assoc, service]

theorem attachRetry_idle {code : List Instruction}
    (idle : ∀ instr ∈ code, instr.op ≠ .next ∧ instr.op ≠ .async) (retry : Option RetryConfig) :
    attachRetry plan code retry = (plan, code) := by
  rcases attachRetry_cases plan code retry with ⟨same, -⟩ | ⟨cfg, init, last, -, split, service, -⟩
  · exact same
  · have none := idle last (by simp [split])
    exact absurd service (not_or.mpr none)

variable {ruleId : String} {plan : ExecutionPlan}

theorem finish_eq (schema : Option Schema) (st : State) :
    ∃ retryConfigs instrCount complexityScore, finish schema st = { st.plan.withSchema schema with
      retryConfigs
      instrCount
      complexityScore
      instructions := st.plan.instructions ++
        (attachRetry (st.plan.withSchema schema) st.instructions st.pendingRetry).2 } := by
  obtain ⟨n, equal⟩ := ExecutionPlan.foldl_addInstr
    (attachRetry (st.plan.withSchema schema) st.instructions st.pendingRetry).2
    (attachRetry (st.plan.withSchema schema) st.instructions st.pendingRetry).1
  simp only [finish, equal]
  rcases attachRetry_cases (st.plan.withSchema schema) st.instructions st.pendingRetry with
    ⟨same, -⟩ | ⟨cfg, init, last, -, -, -, attached⟩
  · rw [same]
    exact ⟨_, _, _, rfl⟩
  · rw [attached]
    exact ⟨_, _, _, rfl⟩

theorem finish_instructions (schema : Option Schema) (st : State) (fresh : st.plan.instructions = []) :
    (finish schema st).instructions = (attachRetry (st.plan.withSchema schema) st.instructions st.pendingRetry).2 := by
  obtain ⟨_, _, _, equal⟩ := finish_eq schema st
  rw [equal, fresh, nil_append]

theorem finish_frame (schema : Option Schema) (st : State) : (finish schema st).services = st.plan.services ∧
      (finish schema st).version = st.plan.version := by
  obtain ⟨_, _, _, equal⟩ := finish_eq schema st
  rw [equal]
  exact ⟨rfl, rfl⟩

theorem compile_version (h : self.compile nodes ruleId = .ok plan) : plan.version = 1 := by
  obtain ⟨schema, last, loop, rfl⟩ := compile_loop h
  rw [(finish_frame schema last).2, (compileNodes_frame loop).version]
  rfl

theorem finish_keeps {schema : Option Schema} {k : Nat} {instr : Instruction}
    (fresh : st.plan.instructions = []) (here : st.instructions[k]? = some instr)
    (notNext : instr.op ≠ .next) (notAsync : instr.op ≠ .async) :
    (finish schema st).instructions[k]? = some instr := by
  rw [finish_instructions schema st fresh]
  rcases attachRetry_cases (st.plan.withSchema schema) st.instructions st.pendingRetry with
    ⟨same, -⟩ | ⟨cfg, init, last, -, split, service, attached⟩
  · rw [same]
    exact here
  · rw [attached]
    rw [split] at here
    have inside : k < init.length := by
      by_contra outside
      have atEnd : k = init.length := by
        have := (List.getElem?_eq_some_iff.mp here).1
        simp only [length_append, length_singleton] at this
        omega
      subst atEnd
      simp only [getElem?_concat_length, Option.some.injEq] at here
      subst here
      exact service.elim notNext notAsync
    rw [getElem?_append_left inside] at here ⊢
    exact here

/-- The first instruction of a node, other than a service call, is at the length of the code before it. -/
theorem compile_head_at {pre post : List ASTNode} {emits : State → Instruction}
    (h : self.compile (pre ++ node :: post) ruleId = .ok plan)
    (emitted : ∀ st st', self.compileNode st node = .ok st' →
      st'.instructions[st.instructions.length]? = some (emits st))
    (other : ∀ st, (emits st).op ≠ .next ∧ (emits st).op ≠ .async) :
    ∃ before, self.compileNodes { plan := .new ruleId } pre = .ok before ∧
      plan.instructions[codeLen pre]? = some (emits before) := by
  obtain ⟨schema, last, loop, rfl⟩ := compile_loop h
  obtain ⟨before, after, first, one, more⟩ := compileNodes_at loop
  have length : before.instructions.length = codeLen pre := by simpa using compileNodes_length first
  refine ⟨before, first, ?_⟩
  apply finish_keeps (compileNodes_frame loop).instructions ?_ (other before).1 (other before).2
  apply compileNodes_keeps more
  rw [← length]
  exact emitted before after one

theorem compile_ops (h : self.compile nodes ruleId = .ok plan) :
    plan.instructions.map (·.op) = nodes.flatMap ASTNode.ops := by
  obtain ⟨schema, last, loop, rfl⟩ := compile_loop h
  obtain ⟨code, grown, shape⟩ := compileNodes_code loop
  rw [finish_instructions schema last (compileNodes_frame loop).instructions, ← shape]
  have all : last.instructions = code := by simpa using grown
  rcases attachRetry_cases (last.plan.withSchema schema) last.instructions
    last.pendingRetry with ⟨same, -⟩ | ⟨cfg, init, final, -, split, -, attached⟩
  · rw [same, all]
  · rw [attached, ← all, split]
    simp

end FlowRulZ.Compiler
