import FlowRulZ.Dsl.Layout

/-! # Jump targets

The compiler looks a jump's label up in the labels met so far.  A label met before
gives its instruction index, cut to 16 bits; any other label gives 0.
-/

open List

namespace FlowRulZ

/-- Every `jmp` names a label of the list, and the operand of its instruction is the index of the instruction emitted
for that label. -/
def JumpsResolved (nodes : List ASTNode) (plan : ExecutionPlan) : Prop :=
  ∀ pre target post, nodes = pre ++ .jmp target :: post → ∃ pre' post', nodes = pre' ++ .label target :: post' ∧
      plan.instructions[codeLen pre']? = some .label ∧
      ∃ instr, plan.instructions[codeLen pre]? = some instr ∧ instr.op = .jmp ∧ instr.a.toNat = codeLen pre'

/-- Every `jmp` comes after its label, and that label's index fits in 16 bits. -/
def JumpsGoBack (nodes : List ASTNode) : Prop :=
  ∀ pre target post, nodes = pre ++ .jmp target :: post →
    ∃ pre' post', pre = pre' ++ .label target :: post' ∧ codeLen pre' < 2 ^ 16

namespace Compiler

variable {self : Compiler} {st st' : State} {nodes : List ASTNode} {target : String}

/-- The label map changes at a label that is not in it yet, and nowhere else. -/
theorem compileNode_labels {node : ASTNode} (h : self.compileNode st node = .ok st') :
    (∃ name, node = .label name ∧ st.labels.lookup name = none ∧
      st'.labels = (name, st.instructions.length) :: st.labels) ∨
    ((∀ name, node ≠ .label name) ∧ st'.labels = st.labels) := by
  cases node with
  | label name =>
    obtain ⟨absent, rfl⟩ := compileNode_label h
    exact .inl ⟨name, rfl, absent, rfl⟩
  | _ => exact .inr ⟨by simp, (compileNode_step h).labels (by simp)⟩

theorem compileNodes_label_kept {k : Nat} (h : self.compileNodes st nodes = .ok st')
    (known : st.labels.lookup target = some k) : st'.labels.lookup target = some k := by
  induction nodes generalizing st with
  | nil => cases h; exact known
  | cons node nodes ih =>
    obtain ⟨mid, one, rest⟩ := compileNodes_cons h
    apply ih rest
    rcases compileNode_labels one with ⟨name, -, absent, grown⟩ | ⟨-, same⟩
    · have apart : target ≠ name := by
        rintro rfl
        rw [absent] at known
        cases known
      simp [grown, lookup_cons, beq_false_of_ne apart, known]
    · rw [same, known]

variable {pre post : List ASTNode}

theorem compileNodes_label_index (h : self.compileNodes st (pre ++ .label target :: post) = .ok st') :
    st'.labels.lookup target = some (st.instructions.length + codeLen pre) := by
  obtain ⟨before, after, first, one, last⟩ := compileNodes_at h
  apply compileNodes_label_kept last
  obtain ⟨-, rfl⟩ := compileNode_label one
  simp [State.push, compileNodes_length first]

theorem compileNodes_label_source {k : Nat} (h : self.compileNodes st nodes = .ok st')
    (known : st'.labels.lookup target = some k) :
    st.labels.lookup target = some k ∨ ∃ pre post, nodes = pre ++ .label target :: post ∧
        k = st.instructions.length + codeLen pre := by
  induction nodes generalizing st with
  | nil => cases h; exact .inl known
  | cons node nodes ih =>
    obtain ⟨mid, one, rest⟩ := compileNodes_cons h
    rcases ih rest with early | ⟨pre, post, rfl, index⟩
    · rcases compileNode_labels one with ⟨name, rfl, -, grown⟩ | ⟨-, same⟩
      · rw [grown, lookup_cons] at early
        by_cases here : target = name
        · subst here
          simp only [beq_self_eq_true, Option.some.injEq] at early
          exact .inr ⟨[], nodes, rfl, by simp [early]⟩
        · rw [beq_false_of_ne here] at early
          exact .inl early
      · exact .inl (same ▸ early)
    · refine .inr ⟨node :: pre, post, rfl, ?_⟩
      rw [index, compileNode_length one, codeLen_cons]
      omega

variable {ruleId : String} {plan : ExecutionPlan}

theorem compile_label_at (h : self.compile (pre ++ .label target :: post) ruleId = .ok plan) :
    plan.instructions[codeLen pre]? = some .label := by
  have emitted : ∀ st st', self.compileNode st (.label target) = .ok st' →
      st'.instructions[st.instructions.length]? = some .label := by
    intro st st' one
    obtain ⟨-, rfl⟩ := compileNode_label one
    simp [State.push]
  obtain ⟨before, -, here⟩ := compile_head_at h emitted fun _ => ⟨by decide, by decide⟩
  exact here

theorem compile_jmp_at (h : self.compile (pre ++ .jmp target :: post) ruleId = .ok plan) :
    ∃ before, self.compileNodes { plan := .new ruleId } pre = .ok before ∧ plan.instructions[codeLen pre]? =
        some (.jmp (UInt16.ofNat ((before.labels.lookup target).getD 0))) := by
  refine compile_head_at h ?_ fun _ => ⟨nofun, nofun⟩
  intro st st' one
  simp only [compileNode, Except.ok.injEq] at one
  subst one
  simp [State.push]

/-- Jumps are resolved exactly when they all go back to a label whose index fits the operand: a label that comes later
is never found. -/
theorem compile_jumps_resolved_iff (h : self.compile nodes ruleId = .ok plan) :
    JumpsResolved nodes plan ↔ JumpsGoBack nodes := by
  constructor
  · intro resolved pre target post split
    obtain ⟨pre', post', labelled, -, instr, found, -, operand⟩ := resolved pre target post split
    obtain ⟨before, first, emitted⟩ := compile_jmp_at (split ▸ h)
    rw [emitted, Option.some.injEq] at found
    subst found
    obtain ⟨schema, last, loop, -⟩ := compile_loop h
    have atLabel : last.labels.lookup target = some (codeLen pre') := by
      rw [labelled] at loop
      simpa using compileNodes_label_index loop
    have operand : (before.labels.lookup target).getD 0 % 2 ^ 16 = codeLen pre' := by
      simpa [Instruction.jmp] using operand
    cases known : before.labels.lookup target with
    | some k =>
      rcases compileNodes_label_source first known with none | ⟨p, q, rfl, index⟩
      · cases none
      · refine ⟨p, q, rfl, ?_⟩
        obtain ⟨mid, one, more⟩ := compileNodes_append (split ▸ loop)
        cases first.symm.trans one
        have : last.labels.lookup target = some k := compileNodes_label_kept more known
        rw [atLabel, Option.some.injEq] at this
        omega
    | none =>
      -- the operand is 0, but the label comes after the two instructions of the jump
      rw [known, Option.getD_none] at operand
      exfalso
      have later : ¬ ∃ q, pre = pre' ++ .label target :: q := by
        intro found
        obtain ⟨q, rfl⟩ := found
        have := compileNodes_label_index first
        rw [known] at this
        cases this
      have cut := split.symm.trans labelled
      rcases append_eq_append_iff.mp cut with ⟨mid, rfl, tail⟩ | ⟨mid, rfl, tail⟩
      · cases mid with
        | nil => cases tail
        | cons node mid =>
          obtain ⟨rfl, -⟩ := tail
          simp only [codeLen_append, codeLen_cons, ASTNode.ops, length_cons] at operand
          omega
      · cases mid with
        | nil => cases tail
        | cons node mid =>
          obtain ⟨rfl, -⟩ := tail
          exact later ⟨mid, rfl⟩
  · intro goBack pre target post split
    obtain ⟨pre', post', rfl, small⟩ := goBack pre target post split
    have labelled : nodes = pre' ++ .label target :: (post' ++ .jmp target :: post) := by
      rw [split]; simp
    obtain ⟨before, first, emitted⟩ := compile_jmp_at (split ▸ h)
    have known : before.labels.lookup target = some (codeLen pre') := by
      simpa using compileNodes_label_index first
    refine ⟨pre', _, labelled, compile_label_at (labelled ▸ h), _, emitted, rfl, ?_⟩
    simp only [known]
    exact Nat.mod_eq_of_lt small

theorem compile_jumps_resolved_back : ∃ plan, ascii.compile [.next "a", .label "l", .jmp "l"] "r" = .ok plan ∧
      JumpsResolved [.next "a", .label "l", .jmp "l"] plan := by
  obtain ⟨plan, compiled⟩ : ∃ plan, ascii.compile [.next "a", .label "l", .jmp "l"] "r" = .ok plan := ⟨_, rfl⟩
  refine ⟨plan, compiled, (compile_jumps_resolved_iff compiled).mpr ?_⟩
  intro pre target post split
  rcases pre with _ | ⟨_, _ | ⟨_, _ | ⟨_, pre⟩⟩⟩ <;> simp at split
  obtain ⟨rfl, rfl, rfl, -⟩ := split
  exact ⟨[.next "a"], [], rfl, by decide⟩

/-- A forward jump, and a jump to no label at all, compile with operand 0. -/
theorem compile_jumps_unresolved : (∃ plan, ascii.compile [.next "a", .jmp "l", .next "b", .label "l"] "r" = .ok plan ∧
      ¬ JumpsResolved [.next "a", .jmp "l", .next "b", .label "l"] plan) ∧
    (∃ plan, ascii.compile [.jmp "l"] "r" = .ok plan ∧ ¬ JumpsResolved [.jmp "l"] plan) := by
  refine ⟨⟨_, rfl, fun resolved => ?_⟩, ⟨_, rfl, fun resolved => ?_⟩⟩
  · obtain ⟨pre', post', split, -, instr, found, -, operand⟩ :=
      resolved [.next "a"] "l" [.next "b", .label "l"] rfl
    have zero : instr.a.toNat = 0 := by cases found; rfl
    rcases pre' with _ | ⟨node, pre'⟩
    · cases split
    · simp only [cons_append, List.cons.injEq] at split
      obtain ⟨rfl, -⟩ := split
      simp only [codeLen_cons, ASTNode.ops, length_cons] at operand
      omega
  · obtain ⟨pre', post', split, -⟩ := resolved [] "l" [] rfl
    rcases pre' with _ | ⟨node, pre'⟩
    · cases split
    · simp at split

end Compiler

end FlowRulZ
