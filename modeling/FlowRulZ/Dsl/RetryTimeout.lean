import FlowRulZ.Dsl.Layout
import FlowRulZ.Dsl.Modifiers
import FlowRulZ.Executor.Services
import Mathlib.Data.UInt

/-! # Where retries and timeouts end up

The compiler keeps a timeout until the next call, and one retry until the end, where it
goes to the last instruction.  The index of the retry takes the place of the low half of
the timeout.
-/

namespace FlowRulZ

open List Instruction

def timeoutBefore (pre : List ASTNode) : UInt64 := (pre.getLast?.bind timeoutOf).getD 0

/-- The retry and the timeout next to a call are those of its instruction. -/
def ModifiersReach (nodes : List ASTNode) (plan : ExecutionPlan) : Prop :=
  ∀ pre service post, nodes = pre ++ service :: post → service.isService = true →
    ∃ instr, plan.instructions[codeLen pre]? = some instr ∧ (instr.op = .next ∨ instr.op = .async) ∧
      (instr.hasRetry = true ↔ (leadingRetry post).isSome = true) ∧
      (∀ count strategy fixedMs rest, post = .retry count strategy fixedMs :: rest →
        findRetryConfig instr plan = Compiler.retryConfig count strategy fixedMs) ∧
      (timeoutBefore pre < 2 ^ 32 → instr.timeoutMs = timeoutBefore pre)

def timeoutInForce (start : UInt64) (nodes : List ASTNode) : UInt64 :=
  nodes.foldl (fun ms node => if node.isService then 0 else (timeoutOf node).getD ms) start

def storedTimeout (ms : UInt64) (retried : Bool) : Nat :=
  if retried then ms.toNat / 2 ^ 16 % 2 ^ 16 * 2 ^ 16 else ms.toNat % 2 ^ 32

/-- No instruction comes after a retry, and the timeout in force at a call, as far as it is stored, is the one right
before it. -/
structure ModifiersFit (nodes : List ASTNode) : Prop where
  retries : ∀ pre retry post, nodes = pre ++ retry :: post → retry.isRetry = true → codeLen post = 0
  timeouts : ∀ pre service post, nodes = pre ++ service :: post → service.isService = true →
    timeoutBefore pre < 2 ^ 32 →
    storedTimeout (timeoutInForce 0 pre) (leadingRetry post).isSome = (timeoutBefore pre).toNat

namespace Instruction

theorem timeoutMs_toNat (instr : Instruction) : instr.timeoutMs.toNat = instr.b.toNat * 2 ^ 16 + instr.c.toNat := by
  have low : instr.c.toNat < 2 ^ 16 := instr.c.toNat_lt
  have high : instr.b.toNat < 2 ^ 16 := instr.b.toNat_lt
  have apart := Nat.two_pow_add_eq_or_of_lt low instr.b.toNat
  simp only [timeoutMs, UInt64.toNat_or, UInt64.toNat_shiftLeft, UInt16.toNat_toUInt64, Nat.shiftLeft_eq]
  rw [Nat.mod_eq_of_lt (by simp; omega)]
  simp only [UInt64.toNat_ofNat] at apart ⊢
  rw [Nat.mul_comm, ← apart]

theorem hi_toNat (ms : UInt64) : (hi ms).toNat = ms.toNat / 2 ^ 16 % 2 ^ 16 := by
  simp [hi, UInt64.toNat_shiftRight, Nat.shiftRight_eq_div_pow]

theorem lo_toNat (ms : UInt64) : (lo ms).toNat = ms.toNat % 2 ^ 16 := by
  have mask : ms.toNat &&& 0xFFFF = ms.toNat % 2 ^ 16 := Nat.and_two_pow_sub_one_eq_mod ms.toNat 16
  simp only [lo, UInt64.toNat_toUInt16, UInt64.toNat_and, UInt64.toNat_ofNat, Nat.reducePow, Nat.reduceMod] at mask ⊢
  omega

end Instruction

namespace Compiler

variable {self : Compiler} {st st' : State} {node : ASTNode} {nodes pre post : List ASTNode}

theorem compileNode_service (h : self.compileNode st node = .ok st') (service : node.isService = true) :
    ∃ instr, st'.instructions = st.instructions ++ [instr] ∧ (instr.op = .next ∨ instr.op = .async) ∧ instr.flags = 0 ∧
      instr.b = hi (st.pendingTimeoutMs.getD 0) ∧
      instr.c = lo (st.pendingTimeoutMs.getD 0) := by
  cases node with
  | next target =>
    cases h
    exact ⟨_, rfl, .inl rfl, rfl, rfl, rfl⟩
  | async target =>
    cases h
    exact ⟨_, rfl, .inr rfl, rfl, rfl, rfl⟩
  | _ => cases service

theorem compileNodes_timeout (h : self.compileNodes st nodes = .ok st') :
    st'.pendingTimeoutMs.getD 0 = timeoutInForce (st.pendingTimeoutMs.getD 0) nodes := by
  induction nodes generalizing st with
  | nil => cases h; rfl
  | cons node nodes ih =>
    obtain ⟨mid, one, rest⟩ := compileNodes_cons h
    rw [ih rest, (compileNode_step one).timeout]
    rfl

theorem compileNodes_noRetry (h : self.compileNodes st nodes = .ok st')
    (free : ∀ node ∈ nodes, node.isRetry = false) : st'.pendingRetry = st.pendingRetry := by
  induction nodes generalizing st with
  | nil => cases h; rfl
  | cons node nodes ih =>
    obtain ⟨mid, one, rest⟩ := compileNodes_cons h
    have notRetry := free node mem_cons_self
    rw [ih rest fun node inside => free node (mem_cons_of_mem _ inside), (compileNode_step one).retry]
    cases node <;> first | rfl | cases notRetry

theorem compileNodes_lastRetry {count : UInt8} {strategy : Option String} {fixedMs : Option UInt32}
    (h : self.compileNodes st (pre ++ .retry count strategy fixedMs :: post) = .ok st')
    (free : ∀ node ∈ post, node.isRetry = false) :
    st'.pendingRetry = some (retryConfig count strategy fixedMs) := by
  obtain ⟨before, after, -, one, rest⟩ := compileNodes_at h
  rw [compileNodes_noRetry rest free, (compileNode_step one).retry]

theorem finish_retryConfigs (schema : Option Schema) (st : State) : (finish schema st).retryConfigs =
      (attachRetry (st.plan.withSchema schema) st.instructions st.pendingRetry).1.retryConfigs := by
  obtain ⟨n, equal⟩ := ExecutionPlan.foldl_addInstr
    (attachRetry (st.plan.withSchema schema) st.instructions st.pendingRetry).2
    (attachRetry (st.plan.withSchema schema) st.instructions st.pendingRetry).1
  simp only [finish, equal]

variable {ruleId : String} {plan : ExecutionPlan} {service : ASTNode}

section

variable (h : self.compile (pre ++ service :: post) ruleId = .ok plan)
include h

/-- The instruction of a call in the plan: with the pending retry if it is the last one. -/
theorem compile_service_at (isService : service.isService = true) : ∃ last instr,
      self.compileNodes { plan := .new ruleId } (pre ++ service :: post) = .ok last ∧
      (instr.op = .next ∨ instr.op = .async) ∧ instr.flags = 0 ∧
      instr.b = hi (timeoutInForce 0 pre) ∧
      instr.c = lo (timeoutInForce 0 pre) ∧
      ((∃ cfg, last.pendingRetry = some cfg ∧ codeLen post = 0 ∧ plan.retryConfigs = [cfg] ∧
          plan.instructions[codeLen pre]? = some { instr with flags := instr.flags ||| 0x01, c := 0 }) ∨
        ((last.pendingRetry = none ∨ codeLen post ≠ 0) ∧ plan.instructions[codeLen pre]? = some instr)) := by
  obtain ⟨schema, last, loop, rfl⟩ := compile_loop h
  obtain ⟨before, after, first, one, more⟩ := compileNodes_at loop
  obtain ⟨instr, emitted, op, flags, high, low⟩ := compileNode_service one isService
  obtain ⟨rest, grown, shape⟩ := compileNodes_code more
  have inForce : before.pendingTimeoutMs.getD 0 = timeoutInForce 0 pre := compileNodes_timeout first
  rw [inForce] at high low
  have length : before.instructions.length = codeLen pre := by simpa using compileNodes_length first
  have size : rest.length = codeLen post := by rw [codeLen, ← shape, length_map]
  have noConfigs : (last.plan.withSchema schema).retryConfigs = [] := (compileNodes_frame loop).retryConfigs
  refine ⟨last, instr, loop, op, flags, high, low, ?_⟩
  rw [finish_instructions schema last (compileNodes_frame loop).instructions, finish_retryConfigs, grown, emitted,
    ← length, ← size]
  -- a retry goes to the call if that is the last instruction
  cases rest with
  | nil =>
    cases last.pendingRetry with
    | none => exact .inr ⟨.inl rfl, by simp [attachRetry]⟩
    | some cfg => exact .inl ⟨cfg, rfl, rfl, by simp [attachRetry, op, noConfigs], by simp [attachRetry, op, noConfigs]⟩
  | cons next rest =>
    rw [attachRetry_append (cons_ne_nil _ _)]
    exact .inr ⟨.inr (by simp), by simp⟩

theorem compile_service_spec (isService : service.isService = true) : ∃ last instr,
      self.compileNodes { plan := .new ruleId } (pre ++ service :: post) = .ok last ∧
      plan.instructions[codeLen pre]? = some instr ∧ (instr.op = .next ∨ instr.op = .async) ∧
      (instr.hasRetry = true ↔ last.pendingRetry ≠ none ∧ codeLen post = 0) ∧
      (instr.hasRetry = true → last.pendingRetry = some (findRetryConfig instr plan)) ∧
      instr.timeoutMs.toNat = storedTimeout (timeoutInForce 0 pre) instr.hasRetry := by
  obtain ⟨last, emitted, loop, op, flags, high, low, outcome⟩ := compile_service_at h isService
  rcases outcome with ⟨cfg, pending, empty, configs, here⟩ | ⟨unattached, here⟩
  · have retried : hasRetry { emitted with flags := emitted.flags ||| 0x01, c := 0 } = true := by
      simp [hasRetry, flags]
    refine ⟨last, _, loop, here, op, ?_, ?_, ?_⟩
    · simp [retried, pending, empty]
    · intro _
      simp [findRetryConfig, configs, pending]
    · rw [timeoutMs_toNat, retried]
      simp [storedTimeout, high, hi_toNat]
  · have single : emitted.hasRetry = false := by simp [hasRetry, flags]
    refine ⟨last, emitted, loop, here, op, ?_, ?_, ?_⟩
    · rw [single]
      simp only [Bool.false_eq_true, false_iff, not_and]
      intro some none
      exact unattached.elim some (fun more => more none)
    · intro retried
      rw [single] at retried
      cases retried
    · rw [timeoutMs_toNat, single, high, low, hi_toNat, lo_toNat]
      simp only [storedTimeout, Bool.false_eq_true, if_false]
      omega

end

end Compiler

theorem service_ops {node : ASTNode} (isService : node.isService = true) : node.ops.length = 1 := by
  rcases ASTNode.isService_cases isService with ⟨target, rfl⟩ | ⟨target, rfl⟩ <;> rfl

theorem service_cut_nil {mid post rest : List ASTNode} {service : ASTNode}
    (same : service :: post = mid ++ rest) (isService : service.isService = true)
    (empty : codeLen mid = 0) : mid = [] := by
  cases mid with
  | nil => rfl
  | cons head mid =>
    obtain ⟨rfl, -⟩ := List.cons.inj same
    have one := service_ops isService
    rw [codeLen_cons] at empty
    omega

theorem service_cut_unique {pre pre' post post' : List ASTNode} {service service' : ASTNode}
    (same : pre ++ service :: post = pre' ++ service' :: post')
    (isService : service.isService = true) (isService' : service'.isService = true)
    (place : codeLen pre = codeLen pre') : post = post' := by
  rcases append_eq_append_iff.mp same with ⟨mid, rfl, rest⟩ | ⟨mid, rfl, rest⟩
  · obtain rfl := service_cut_nil rest isService (by rw [codeLen_append] at place; omega)
    exact (List.cons.inj rest).2
  · obtain rfl := service_cut_nil rest isService' (by rw [codeLen_append] at place; omega)
    exact (List.cons.inj rest).2.symm

section

variable {nodes pre post : List ASTNode}

theorem noRetry_of_noCode {retry : ASTNode} (follows : RetriesFollowServices nodes)
    (split : nodes = pre ++ retry :: post) (isRetry : retry.isRetry = true)
    (empty : codeLen post = 0) : ∀ node ∈ post, node.isRetry = false := by
  intro node inside
  by_contra another
  obtain ⟨left, right, rfl⟩ := append_of_mem inside
  obtain ⟨before, service, cut, isService⟩ :=
    follows (pre ++ retry :: left) node right (by simp [split]) (by simpa using another)
  -- the call before the second retry is an instruction after the first
  rcases eq_nil_or_concat left with rfl | ⟨init, last, rfl⟩
  · obtain ⟨-, same⟩ := append_inj' cut rfl
    cases same
    obtain ⟨count, strategy, fixedMs, rfl⟩ := ASTNode.isRetry_cases isRetry
    cases isService
  · rw [concat_eq_append, ← cons_append, ← append_assoc] at cut
    obtain ⟨-, same⟩ := append_inj' cut rfl
    cases same
    have one := service_ops isService
    simp only [concat_eq_append, codeLen_append, codeLen_cons] at empty
    omega

theorem leadingRetry_isSome : (leadingRetry post).isSome = true ↔
      ∃ count strategy fixedMs rest, post = .retry count strategy fixedMs :: rest := by
  cases post with
  | nil => simp [leadingRetry]
  | cons node rest =>
    simp only [leadingRetry]
    split
    · rename_i isRetry
      obtain ⟨count, strategy, fixedMs, rfl⟩ := ASTNode.isRetry_cases isRetry
      simp
    · rename_i notRetry
      simp only [Option.isSome_none, Bool.false_eq_true, false_iff]
      intro given
      obtain ⟨count, strategy, fixedMs, rest, same⟩ := given
      cases same
      exact notRetry rfl

end

namespace Compiler

variable {self : Compiler} {nodes pre post : List ASTNode} {service : ASTNode} {ruleId : String}
  {plan : ExecutionPlan} {last : State}

theorem pendingRetry_last {count : UInt8} {strategy : Option String} {fixedMs : Option UInt32}
    (follows : RetriesFollowServices (pre ++ service :: .retry count strategy fixedMs :: post))
    (loop : self.compileNodes { plan := .new ruleId }
      (pre ++ service :: .retry count strategy fixedMs :: post) = .ok last)
    (empty : codeLen post = 0) : last.pendingRetry = some (retryConfig count strategy fixedMs) := by
  rw [append_cons] at follows loop
  exact compileNodes_lastRetry loop (noRetry_of_noCode follows rfl rfl empty)

section

variable (follows : RetriesFollowServices (pre ++ service :: post)) (isService : service.isService = true)
  (fits : ∀ left retry right,
    pre ++ service :: post = left ++ retry :: right → retry.isRetry = true → codeLen right = 0)
  (loop : self.compileNodes { plan := .new ruleId } (pre ++ service :: post) = .ok last)
include follows isService fits loop

theorem pendingRetry_none (single : (leadingRetry post).isSome = false) (empty : codeLen post = 0) :
    last.pendingRetry = none := by
  rcases Optimizer.first_retry (pre ++ service :: post) with free | ⟨left, retry, right, split, isRetry, -⟩
  · exact compileNodes_noRetry loop free
  · exfalso
    obtain ⟨before, call, rfl, isCall⟩ := follows left retry right split isRetry
    have ends := fits _ retry right split isRetry
    obtain ⟨count, strategy, fixedMs, rfl⟩ := ASTNode.isRetry_cases isRetry
    rw [append_assoc, singleton_append] at split
    have total := congrArg codeLen split
    simp only [codeLen_append, codeLen_cons, service_ops isService, service_ops isCall] at total
    have noOps : (ASTNode.retry count strategy fixedMs).ops.length = 0 := rfl
    have same := service_cut_unique split isService isCall (by omega)
    rw [leadingRetry_isSome.mpr ⟨count, strategy, fixedMs, right, same⟩] at single
    cases single

/-- A call has a retry in the plan if and only if one follows it in the list. -/
theorem hasRetry_iff : (last.pendingRetry ≠ none ∧ codeLen post = 0) ↔ (leadingRetry post).isSome = true := by
  constructor
  · intro given
    obtain ⟨pending, empty⟩ := given
    cases single : (leadingRetry post).isSome with
    | true => rfl
    | false => exact absurd (pendingRetry_none follows isService fits loop single empty) pending
  · intro retried
    obtain ⟨count, strategy, fixedMs, rest, rfl⟩ := leadingRetry_isSome.mp retried
    have empty : codeLen rest = 0 :=
      fits (pre ++ [service]) _ rest (append_cons pre service _) rfl
    rw [pendingRetry_last follows loop empty]
    exact ⟨nofun, empty⟩

end

/-- Retries and timeouts reach their calls if and only if they fit. -/
theorem compile_modifiers_iff (follows : RetriesFollowServices nodes)
    (h : self.compile nodes ruleId = .ok plan) : ModifiersReach nodes plan ↔ ModifiersFit nodes := by
  constructor
  · intro reach
    constructor
    · intro left retry right split isRetry
      obtain ⟨pre, service, rfl, isService⟩ := follows left retry right split isRetry
      rw [append_assoc] at split
      subst split
      obtain ⟨count, strategy, fixedMs, rfl⟩ := ASTNode.isRetry_cases isRetry
      obtain ⟨last, instr, loop, here, -, retried, -, -⟩ := compile_service_spec h isService
      obtain ⟨instr', here', -, wanted, -⟩ := reach pre service _ rfl isService
      obtain rfl : instr = instr' := Option.some.inj (here.symm.trans here')
      exact (retried.mp (wanted.mpr rfl)).2
    · intro pre service post split isService small
      subst split
      obtain ⟨last, instr, loop, here, -, -, -, stored⟩ := compile_service_spec h isService
      obtain ⟨instr', here', -, wanted, -, timeout⟩ := reach pre service post rfl isService
      obtain rfl : instr = instr' := Option.some.inj (here.symm.trans here')
      rw [← timeout small, stored, Bool.eq_iff_iff.mpr wanted]
  · intro fit pre service post split isService
    subst split
    obtain ⟨last, instr, loop, here, op, retried, config, stored⟩ := compile_service_spec h isService
    have wanted := retried.trans (hasRetry_iff follows isService fit.retries loop)
    refine ⟨instr, here, op, wanted, ?_, ?_⟩
    · rintro count strategy fixedMs rest rfl
      have pending := config (wanted.mpr rfl)
      rw [pendingRetry_last follows loop (retried.mp (wanted.mpr rfl)).2] at pending
      exact (Option.some.inj pending).symm
    · intro small
      apply UInt64.toNat_inj.mp
      rw [stored, Bool.eq_iff_iff.mpr wanted]
      exact fit.timeouts pre service post rfl isService small

/-- A timeout whose low half is zero, on a call with a retry at the end. -/
theorem compile_modifiers_last : ∃ plan, ascii.compile [.timeout 65536, .next "a", .retry 3 none none] "r" = .ok plan ∧
      ModifiersReach [.timeout 65536, .next "a", .retry 3 none none] plan := by
  obtain ⟨plan, compiled⟩ :
      ∃ plan, ascii.compile [.timeout 65536, .next "a", .retry 3 none none] "r" = .ok plan := ⟨_, rfl⟩
  have accepted : parse [.timeout 65536, .next "a", .retry 3 none none] =
      .ok [.timeout 65536, .next "a", .retry 3 none none] := rfl
  refine ⟨plan, compiled, (compile_modifiers_iff (parse_retries accepted) compiled).mpr ⟨?_, ?_⟩⟩
  · intro pre retry post split isRetry
    rcases pre with _ | ⟨_, _ | ⟨_, _ | ⟨_, pre⟩⟩⟩
    · cases split; cases isRetry
    · cases split; cases isRetry
    · cases split; rfl
    · simp at split
  · intro pre service post split isService small
    rcases pre with _ | ⟨_, _ | ⟨_, _ | ⟨_, pre⟩⟩⟩
    · cases split; cases isService
    · cases split; decide
    · cases split; cases isService
    · simp at split

/-- The retry of the first call goes to the second one; the timeout of a call with a retry is lost. -/
theorem compile_modifiers_lost : (parse [.next "a", .retry 3 none none, .next "b"] =
        .ok [.next "a", .retry 3 none none, .next "b"] ∧
      ∃ plan, ascii.compile [.next "a", .retry 3 none none, .next "b"] "r" = .ok plan ∧
        plan.instructions.map (·.hasRetry) = [false, true] ∧
        ¬ ModifiersReach [.next "a", .retry 3 none none, .next "b"] plan) ∧
    (parse [.timeout 500, .next "a", .retry 3 none none] = .ok [.timeout 500, .next "a", .retry 3 none none] ∧
      ∃ plan, ascii.compile [.timeout 500, .next "a", .retry 3 none none] "r" = .ok plan ∧
        plan.instructions.map (·.timeoutMs) = [0] ∧
        ¬ ModifiersReach [.timeout 500, .next "a", .retry 3 none none] plan) := by
  refine ⟨⟨rfl, _, rfl, rfl, fun reach => ?_⟩, ⟨rfl, _, rfl, rfl, fun reach => ?_⟩⟩
  · obtain ⟨instr, here, -, retried, -⟩ := reach [] (.next "a") _ rfl rfl
    cases here
    exact absurd retried (by decide)
  · obtain ⟨instr, here, -, -, -, timeout⟩ := reach [.timeout 500] (.next "a") _ rfl rfl
    cases here
    exact absurd (timeout (by decide)) (by decide)

end Compiler

end FlowRulZ
