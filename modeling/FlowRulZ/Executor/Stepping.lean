import FlowRulZ.Dsl.Compiler
import FlowRulZ.Executor.VM

/-! # Running by steps

`VM::step` stops before a service call and takes the answer with the next step.  Its
caller loops until the machine is done.  This loop and `VM::run` do the same as long as no
emit and no retried async call is executed: `step` takes the count of an emit for a
service, and `run` replaces the answer of a retried async call by an empty body.
-/

namespace FlowRulZ.VM

def answering (f : UInt16 → Bytes → Bytes) : Caller := fun _ call => .ok (f call.svcId call.body)

def replying (reply : List Call → Call → Bytes) : Caller := fun log call => .ok (reply log call)

/-- The machine between two steps, with the answer for the next one. -/
structure Suspended where
  vm : VM
  response : Option Bytes := none
  deriving Repr, DecidableEq

/-- The loop around `VM::step`, which makes the calls itself. -/
def stepLoop (rt : Runtime) (f : UInt16 → Bytes → Bytes) : Machine Suspended (Outcome) where
  next s :=
    match step rt s.response s.vm with
    | (vm, .error e) => .inr (vm, .error e)
    | (vm, .ok .done) => .inr (vm, .ok ())
    | (vm, .ok .continue) => .inl ⟨vm, none⟩
    | (vm, .ok (.delay _)) => .inl ⟨vm, none⟩
    | (vm, .ok (.pending svcId body timeoutMs)) =>
      .inl ⟨vm.setCalls (vm.calls ++ [⟨svcId, body, timeoutMs⟩]), some (f svcId body)⟩

def stepsAlike (instr : Instruction) : Bool :=
  match instr.op with
  | .emit => false
  | .async => !instr.hasRetry
  | _ => true

def StepsAlike (rt : Runtime) (vm : VM) : Prop :=
  (rt.plan.instructions[vm.ctx.ip]?).all stepsAlike = true

instance (rt : Runtime) : DecidablePred (StepsAlike rt) := fun _ => inferInstanceAs (Decidable (_ = _))

def isCall : OpCode → Bool
  | .next | .async | .emit | .svcCall => true
  | _ => false

section

variable {rt : Runtime} {f : UInt16 → Bytes → Bytes} {s : Suspended} {instr : Instruction}

def pendingCall (instr : Instruction) (vm : VM) : Call := ⟨instr.a, vm.ctx.body, instr.timeoutMs⟩

section

variable (here : rt.plan.instructions[(s.vm.respond s.response).ctx.ip]? = some instr)
include here

theorem stepLoop_call (call : isCall instr.op = true) : (stepLoop rt f).next s = .inl
      ⟨(s.vm.respond s.response).setCalls ((s.vm.respond s.response).calls ++
        [pendingCall instr (s.vm.respond s.response)]),
        some (f instr.a (s.vm.respond s.response).ctx.body)⟩ := by
  simp only [stepLoop, step, here]
  cases op : instr.op <;> rw [op] at call <;> first | rfl | cases call

theorem stepLoop_delay (delay : instr.op = .delay) :
    (stepLoop rt f).next s = .inl ⟨(s.vm.respond s.response).advance, none⟩ := by
  simp only [stepLoop, step, here, delay]

end

theorem step_dispatched {vm : VM} {response : Option Bytes}
    (here : rt.plan.instructions[(vm.respond response).ctx.ip]? = some instr)
    (noCall : isCall instr.op = false) (noDelay : instr.op ≠ .delay) :
    step rt response vm =
      match dispatch rt instr (vm.respond response).advance with
      | (vm, .error e) => (vm, .error e)
      | (vm, .ok ()) =>
        if rt.plan.instructions.length ≤ vm.ctx.ip then (vm, .ok .done) else (vm, .ok .continue) := by
  simp only [step, here]
  cases op : instr.op <;> first | rfl | exact absurd op noDelay | (rw [op] at noCall; cases noCall)

theorem stepLoop_dispatch (here : rt.plan.instructions[(s.vm.respond s.response).ctx.ip]? = some instr)
    (noCall : isCall instr.op = false) (noDelay : instr.op ≠ .delay) :
    (stepLoop rt f).next s =
      match dispatch rt instr (s.vm.respond s.response).advance with
      | (vm, .error e) => .inr (vm, .error e)
      | (vm, .ok ()) =>
        if rt.plan.instructions.length ≤ vm.ctx.ip then .inr (vm, .ok ()) else .inl ⟨vm, none⟩ := by
  simp only [stepLoop, step_dispatched here noCall noDelay]
  rcases dispatch rt instr (s.vm.respond s.response).advance with ⟨vm, _ | _⟩
  · rfl
  · dsimp only
    split_ifs <;> rfl

variable {host : Host} {scheduler : Scheduler} {plan : ExecutionPlan} {vm : VM}

theorem execNext_replying {reply : List Call → Call → Bytes} (body : Bytes) (isAsync : Bool) (log : List Call) :
    execNext (replying reply) body instr plan isAsync log =
      (.ok (if instr.hasRetry && isAsync then [] else reply log ⟨instr.a, body, instr.timeoutMs⟩),
        log ++ [⟨instr.a, body, instr.timeoutMs⟩]) := by
  cases retried : instr.hasRetry <;> simp [execNext, retried, execWithRetry, retryLoop, replying]

/-- Dispatching a call does what the call and the response to it do. -/
theorem dispatch_replying {reply : List Call → Call → Bytes} (call : isCall instr.op = true)
    (alike : stepsAlike instr = true) :
    dispatch ⟨host, scheduler, plan, replying reply⟩ instr vm.advance =
      ((vm.setCalls (vm.calls ++ [pendingCall instr vm])).respond
        (some (reply vm.calls (pendingCall instr vm))), .ok ()) := by
  cases op : instr.op with
  | next =>
    simp only [dispatch, op, opNext, execNext_replying, Bool.and_false, Bool.false_eq_true, if_false]
    rfl
  | async =>
    have single : instr.hasRetry = false := by simpa [stepsAlike, op] using alike
    simp only [dispatch, op, opNext, execNext_replying, single, Bool.false_and, Bool.false_eq_true, if_false]
    rfl
  | svcCall =>
    simp only [dispatch, op]
    rfl
  | emit => simp [stepsAlike, op] at alike
  | _ => rw [op] at call; cases call

theorem dispatch_call (call : isCall instr.op = true) (alike : stepsAlike instr = true) :
    dispatch ⟨host, scheduler, plan, answering f⟩ instr vm.advance =
      ((vm.setCalls (vm.calls ++ [pendingCall instr vm])).respond (some (f instr.a vm.ctx.body)), .ok ()) :=
  @dispatch_replying _ host scheduler plan vm (fun _ call => f call.svcId call.body) call alike

/-- The state of the run is that of the steps, once the response is taken; or the last step has left the plan and the
run has only to notice. -/
def Resumes (rt : Runtime) (f : UInt16 → Bytes → Bytes) (vm : VM) (s : Suspended) : Prop :=
  (runLoop rt).Always (StepsAlike rt) vm ∧ (vm = s.vm.respond s.response ∨
      (stepLoop rt f).next s = .inr (vm, .ok ()) ∧ (runLoop rt).next vm = .inr (vm, .ok ()))

def movesLeft (rt : Runtime) (vm : VM) : Nat :=
  if rt.plan.instructions.length ≤ vm.ctx.ip then 0 else 1

theorem stepLoop_simulates : Machine.Simulates (runLoop ⟨host, scheduler, plan, answering f⟩)
      (stepLoop ⟨host, scheduler, plan, answering f⟩ f)
      (Resumes ⟨host, scheduler, plan, answering f⟩ f)
      (movesLeft ⟨host, scheduler, plan, answering f⟩) where
  halt := by
    intro vm s result resumes halted
    obtain ⟨alike, rfl | ⟨done, ended⟩⟩ := resumes
    · refine ⟨s, .refl, ?_, alike, .inl rfl⟩
      rcases runLoop_halt.mp halted with ⟨outside, rfl⟩ | ⟨instr, vm', e, here, failed, rfl⟩
      · simp only [stepLoop, step, outside]
      · -- calls never fail here, and a delay does not either
        have noCall : isCall instr.op = false := by
          by_contra call
          rw [dispatch_call (by simpa using call) (by simpa [StepsAlike, here] using alike.here)] at failed
          cases failed
        have noDelay : instr.op ≠ .delay := by
          intro delay
          simp only [dispatch, delay] at failed
          cases failed
        rw [stepLoop_dispatch here noCall noDelay, failed]
    · rw [ended, Sum.inr.injEq] at halted
      subst halted
      exact ⟨s, .refl, done, alike, .inr ⟨done, ended⟩⟩
  step := by
    intro vm s vm' resumes move
    obtain ⟨alike, rfl | ⟨-, ended⟩⟩ := resumes
    · have later := alike.step move
      obtain ⟨instr, here, dispatched⟩ := runLoop_step.mp move
      cases call : isCall instr.op with
      | true =>
        left
        rw [dispatch_call call (by simpa [StepsAlike, here] using alike.here)] at dispatched
        cases dispatched
        exact ⟨_, .single (stepLoop_call here call), later, .inl rfl⟩
      | false =>
        by_cases delay : instr.op = .delay
        · left
          simp only [dispatch, delay] at dispatched
          cases dispatched
          exact ⟨_, .single (stepLoop_delay here delay), later, .inl rfl⟩
        · have next := stepLoop_dispatch (f := f) here call delay
          rw [dispatched] at next
          by_cases outside : plan.instructions.length ≤ vm'.ctx.ip
          · right
            simp only [outside] at next
            refine ⟨⟨later, .inr ⟨next, ?_⟩⟩, ?_⟩
            · exact runLoop_halt.mpr (.inl ⟨List.getElem?_eq_none outside, rfl⟩)
            · have inside := (List.getElem?_eq_some_iff.mp here).1
              simp only [movesLeft]
              rw [if_pos outside, if_neg (by simpa using inside)]
              exact Nat.one_pos
          · left
            simp only [outside] at next
            exact ⟨_, .single next, later, .inl rfl⟩
    · exact absurd ended move.not_halted

/-- Running by steps ends as the run does: with the same calls, body and result, if neither an emit nor a retried async
call is executed. -/
theorem stepLoop_halts_iff (ctx : ExecutionContext) (alike : (runLoop ⟨host, scheduler, plan, answering f⟩).Always
      (StepsAlike ⟨host, scheduler, plan, answering f⟩) (init ctx))
    (result : Outcome) :
    (stepLoop ⟨host, scheduler, plan, answering f⟩ f).Halts ⟨init ctx, none⟩ result ↔
      Runs ⟨host, scheduler, plan, answering f⟩ ctx result :=
  (stepLoop_simulates.halts_iff ⟨alike, .inl rfl⟩).symm

end

def signed (svcId : UInt16) (body : Bytes) : Bytes := svcId.toUInt8 :: body

def signedRuntime (nodes : List ASTNode) : Runtime :=
  ⟨.mute, .inOrder, Compiler.ascii.planOf nodes "r", answering signed⟩

/-- A call, a pause and an async call. -/
theorem stepLoop_halts_calls : Compiler.ascii.compile [.next "a", .delay 5, .async "b"] "r" =
        .ok (Compiler.ascii.planOf [.next "a", .delay 5, .async "b"] "r") ∧
      (stepLoop (signedRuntime [.next "a", .delay 5, .async "b"]) signed).Halts ⟨init (.fromBody [7]), none⟩
        (⟨⟨[1, 0, 7], false, [], 2, 3⟩, [⟨0, [7], 0⟩, ⟨1, [0, 7], 0⟩]⟩, .ok ()) := by
  refine ⟨rfl, (stepLoop_halts_iff (.fromBody [7]) ?_ _).mpr ?_⟩
  · exact Machine.always_of_check 10 (by decide)
  · exact Machine.exists_run_iff.mp ⟨10, rfl⟩

/-- A single emit: the run calls service 0 and keeps the body; by steps, service 1 is
    called, which the plan does not have, and its answer becomes the body.  A retried async
    call: the run ends with an empty body, the steps with the answer. -/
theorem stepLoop_differs : (Compiler.ascii.compile [.emit ["a"]] "r" = .ok (Compiler.ascii.planOf [.emit ["a"]] "r") ∧
      Runs (signedRuntime [.emit ["a"]]) (.fromBody [7]) (⟨⟨[7], false, [], 0, 2⟩, [⟨0, [7], 0⟩]⟩, .ok ()) ∧
      (stepLoop (signedRuntime [.emit ["a"]]) signed).Halts ⟨init (.fromBody [7]), none⟩
        (⟨⟨[1, 7], false, [], 1, 2⟩, [⟨1, [7], 0⟩]⟩, .ok ())) ∧
    (Compiler.ascii.compile [.async "a", .retry 3 none none] "r" =
        .ok (Compiler.ascii.planOf [.async "a", .retry 3 none none] "r") ∧
      Runs (signedRuntime [.async "a", .retry 3 none none]) (.fromBody [7])
        (⟨⟨[], false, [], 1, 1⟩, [⟨0, [7], 0⟩]⟩, .ok ()) ∧
      (stepLoop (signedRuntime [.async "a", .retry 3 none none]) signed).Halts ⟨init (.fromBody [7]), none⟩
        (⟨⟨[0, 7], false, [], 1, 1⟩, [⟨0, [7], 0⟩]⟩, .ok ())) := by
  refine ⟨⟨rfl, ?_, ?_⟩, ⟨rfl, ?_, ?_⟩⟩
  all_goals exact Machine.exists_run_iff.mp ⟨10, rfl⟩

end FlowRulZ.VM
