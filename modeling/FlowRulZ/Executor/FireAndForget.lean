import FlowRulZ.Dsl.Compiler
import FlowRulZ.Executor.VM

/-! # Fire and forget

`Async` and `Emit` are meant to leave the body alone.  `Emit` does so in `VM::run`.  An
`Async` call stores the answer like `Next`, or an empty body if it is retried, and
`VM::step` stores the response of both.
-/

namespace FlowRulZ

/-- The first `attempts` calls, one after the other, all fail. -/
def Unanswered (caller : Caller) (call : Call) (attempts : Nat) (log : List Call) : Prop :=
  ∀ k < attempts, (caller (log ++ List.replicate k call) call).toOption = none

namespace VM

def isFireAndForget : OpCode → Bool
  | .async | .emit => true
  | _ => false

/-- Executing the instruction does not change the body: neither in `VM::run`, nor in `VM::step`, where the body after
the call is the one that `step(Some(response))` goes on with. -/
structure LeavesBody (rt : Runtime) (instr : Instruction) (vm : VM) (response : Bytes) : Prop where
  run : (dispatch rt instr vm.advance).1.ctx.body = vm.ctx.body
  pending : (step rt none vm).1.ctx.body = vm.ctx.body
  responded : ((step rt none vm).1.respond (some response)).ctx.body = vm.ctx.body

/-- What an `Async` call stores is the body already: the answer itself, or the empty body that stands for the answer of
a retried call. -/
def StoresSame (rt : Runtime) (instr : Instruction) (vm : VM) : Prop :=
  let call : Call := ⟨instr.a, vm.ctx.body, instr.timeoutMs⟩
  if instr.hasRetry then
    vm.ctx.body = [] ∨ Unanswered rt.caller call ((findRetryConfig instr rt.plan).maxAttempts.toNat + 1) vm.calls
  else ∀ answer, rt.caller vm.calls call = .ok answer → answer = vm.ctx.body

section

variable {caller : Caller} {call : Call} {log : List Call} {left : Nat}

theorem unanswered_zero : Unanswered caller call 0 log := by
  intro k bound
  omega

theorem unanswered_succ : Unanswered caller call (left + 1) log ↔
    (caller log call).toOption = none ∧ Unanswered caller call left (log ++ [call]) := by
  constructor
  · intro all
    refine ⟨by simpa using all 0 (by omega), ?_⟩
    intro k bound
    simpa [List.replicate_succ] using all (k + 1) (by omega)
  · rintro ⟨first, others⟩ k bound
    cases k with
    | zero => simpa using first
    | succ k => simpa [List.replicate_succ] using others k (by omega)

/-- The attempts for an acknowledgement give nothing but an empty answer, and they give it unless all of them fail. -/
theorem retryLoop_ack (caller : Caller) (call : Call) (left : Nat) : ∀ (lastErr : Option String) (log : List Call),
    (Unanswered caller call left log → (retryLoop caller call true lastErr left log).1.toOption = none) ∧
      (¬ Unanswered caller call left log → (retryLoop caller call true lastErr left log).1 = .ok []) := by
  induction left with
  | zero =>
    intro lastErr log
    exact ⟨fun _ => rfl, fun answered => absurd unanswered_zero answered⟩
  | succ left ih =>
    intro lastErr log
    rw [unanswered_succ]
    unfold retryLoop
    cases answer : caller log call with
    | ok resp => simp [Except.toOption]
    | error e => simpa [Except.toOption] using ih (some e) (log ++ [call])

end

section

variable {rt : Runtime} {vm : VM} {instr : Instruction} {response : Bytes}

theorem body_opNext (rt : Runtime) (instr : Instruction) (vm : VM) : (opNext rt instr true vm).ctx.body =
    ((execNext rt.caller vm.ctx.body instr rt.plan true vm.calls).1.toOption).getD vm.ctx.body := by
  rw [opNext]
  cases (execNext rt.caller vm.ctx.body instr rt.plan true vm.calls).1 <;> rfl

/-- An `Async` call leaves the body alone if and only if it stores what is there. -/
theorem async_leaves_iff (rt : Runtime) (instr : Instruction) (vm : VM) :
    (opNext rt instr true vm).ctx.body = vm.ctx.body ↔ StoresSame rt instr vm := by
  rw [body_opNext, StoresSame, execNext]
  cases retried : instr.hasRetry with
  | false =>
    cases rt.caller vm.calls ⟨instr.a, vm.ctx.body, instr.timeoutMs⟩ <;> simp [Except.toOption]
  | true =>
    simp only [execWithRetry]
    have ack := retryLoop_ack rt.caller ⟨instr.a, vm.ctx.body, instr.timeoutMs⟩
      ((findRetryConfig instr rt.plan).maxAttempts.toNat + 1) none vm.calls
    by_cases unanswered : Unanswered rt.caller ⟨instr.a, vm.ctx.body, instr.timeoutMs⟩
        ((findRetryConfig instr rt.plan).maxAttempts.toNat + 1) vm.calls
    · simp [ack.1 unanswered, unanswered]
    · simp [ack.2 unanswered, unanswered, Except.toOption, eq_comm]

theorem step_pending (here : rt.plan.instructions[vm.ctx.ip]? = some instr) (kind : isFireAndForget instr.op = true) :
    step rt none vm = (vm, .ok (.pending instr.a vm.ctx.body instr.timeoutMs)) := by
  cases op : instr.op <;> simp [op, isFireAndForget] at kind <;> simp [step, respond, here, op]

/-- `Async` and `Emit` leave the body alone, in both ways of execution, if and only if the response is the body, and
what `VM::run` stores for an `Async` call is too. -/
theorem leavesBody_iff (here : rt.plan.instructions[vm.ctx.ip]? = some instr) (kind : isFireAndForget instr.op = true) :
    LeavesBody rt instr vm response ↔ (instr.op = .async → StoresSame rt instr vm) ∧ response = vm.ctx.body := by
  have run : (dispatch rt instr vm.advance).1.ctx.body = vm.ctx.body ↔
      (instr.op = .async → StoresSame rt instr vm) := by
    cases op : instr.op <;> rw [op] at kind <;> simp only [isFireAndForget, Bool.false_eq_true] at kind
    case async =>
        simp only [dispatch, op, true_implies]
        exact async_leaves_iff rt instr vm.advance
    case emit =>
        -- `op_emit` makes its calls and touches nothing else
        simp only [dispatch, op, reduceCtorEq, false_implies, iff_true]
        rfl
  have pending := step_pending here kind
  constructor
  · rintro ⟨ran, -, responded⟩
    refine ⟨run.mp ran, ?_⟩
    exact responded
  · rintro ⟨stored, rfl⟩
    refine ⟨run.mpr stored, ?_, ?_⟩ <;> rw [pending]
    rfl

end

def constantRuntime (answer : Bytes) (nodes : List ASTNode) : Runtime :=
  ⟨.mute, .inOrder, Compiler.ascii.planOf nodes "r", fun _ _ => .ok answer⟩

/-- A service that answers with the body it is sent. -/
theorem leavesBody_same : LeavesBody (constantRuntime [7] [.async "a"]) (.asyncSvc 0 0) (init (.fromBody [7])) [7] := by
  apply (leavesBody_iff rfl rfl).mpr
  refine ⟨fun _ answer answered => ?_, rfl⟩
  exact (Except.ok.inj answered).symm

/-- The answer of an `Async` call becomes the body, an empty body does if the call is retried, and the response to an
`Emit` does in `VM::step`. -/
theorem async_emit_change_body : ((constantRuntime [1] [.async "a"]).plan.instructions = [.asyncSvc 0 0] ∧
        ¬ LeavesBody (constantRuntime [1] [.async "a"]) (.asyncSvc 0 0) (init (.fromBody [7])) [7]) ∧
      ((constantRuntime [7] [.async "a", .retry 3 none none]).plan.instructions = [⟨.async, 1, 0, 0, 0⟩] ∧
        ¬ LeavesBody (constantRuntime [7] [.async "a", .retry 3 none none]) ⟨.async, 1, 0, 0, 0⟩
          (init (.fromBody [7])) [7]) ∧
      ((constantRuntime [1] [.emit ["a"]]).plan.instructions[0]? = some (.emit 1 0) ∧
        ¬ LeavesBody (constantRuntime [1] [.emit ["a"]]) (.emit 1 0) (init (.fromBody [7])) [1]) := by
  refine ⟨⟨by decide, ?_⟩, ⟨by decide, ?_⟩, by decide, ?_⟩ <;> intro leaves
  · exact absurd leaves.run (by decide)
  · exact absurd leaves.run (by decide)
  · exact absurd leaves.responded (by decide)

end VM

end FlowRulZ
