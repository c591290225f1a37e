import FlowRulZ.Dsl.Compiler
import FlowRulZ.Executor.VM
import FlowRulZ.Lib.Latch

/-! # Fallbacks

A fallback is meant for the instruction before it.  The machine keeps one flag instead: a
failed call sets it, a fallback clears it, and no other instruction touches it.  So a
fallback stands in for the last failure since the fallback before, however far back it is.
-/

open List

namespace FlowRulZ.VM

def lastFails (caller : Caller) (calls : List Call) : Bool :=
  match calls.getLast? with
  | none => false
  | some call =>
    match caller calls.dropLast call with
    | .ok _ => false
    | .error _ => true

/-- An instruction that was executed: whether it made a call, and whether the last call it made failed. -/
structure Executed where
  instr : Instruction
  called : Bool
  failed : Bool
  deriving Repr, DecidableEq

def execution (rt : Runtime) (instr : Instruction) (vm : VM) : Executed :=
  let calls := (dispatch rt instr vm.advance).1.calls
  ⟨instr, calls ≠ vm.calls, calls ≠ vm.calls && lastFails rt.caller calls⟩

def traced (rt : Runtime) (vm : VM) : List Executed :=
  match rt.plan.instructions[vm.ctx.ip]? with
  | none => []
  | some instr => [execution rt instr vm]

abbrev tracing (rt : Runtime) : Machine (VM × List Executed) (Outcome × List Executed) :=
  (runLoop rt).recording (traced rt)

def isFallible : OpCode → Bool
  | .next | .async | .svcCall | .fallback => true
  | _ => false

namespace Executed

def fails (x : Executed) : Bool := isFallible x.instr.op && x.failed

def isFallback (x : Executed) : Bool := x.instr.op = .fallback

end Executed

/-- Every fallback calls its service if and only if the instruction executed just before it failed. -/
def Routed (trace : List Executed) : Prop :=
  ∀ before x later, trace = before ++ x :: later → x.isFallback = true →
    (x.called = true ↔ ∃ last, before.getLast? = some last ∧ last.fails = true)

/-- A fallback that is executed after a failure, with no other failure or fallback in between, is executed right after
it. -/
def Prompt (trace : List Executed) : Prop :=
  ∀ before x idle y later, trace = before ++ x :: idle ++ y :: later → x.fails = true →
    Latch.Idle Executed.fails Executed.isFallback idle → y.isFallback = true → idle = []

section

variable {caller : Caller} {call : Call} {log : List Call}

@[simp]
theorem lastFails_concat (log : List Call) (call : Call) :
    lastFails caller (log ++ [call]) = (caller log call).toOption.isNone := by
  simp only [lastFails, getLast?_concat, dropLast_concat]
  cases caller log call <;> rfl

/-- All attempts make at least one call, and fail if the last one does. -/
theorem retryLoop_spec (asyncAck : Bool) (left : Nat) : ∀ (lastErr : Option String) (log : List Call),
    ∃ more, more ≠ [] ∧ (retryLoop caller call asyncAck lastErr (left + 1) log).2 = log ++ more ∧
      (retryLoop caller call asyncAck lastErr (left + 1) log).1.toOption.isNone = lastFails caller (log ++ more) := by
  induction left with
  | zero =>
    intro lastErr log
    refine ⟨[call], by simp, ?_⟩
    unfold retryLoop
    rw [lastFails_concat]
    cases caller log call <;> simp [retryLoop, Except.toOption]
  | succ left ih =>
    intro lastErr log
    unfold retryLoop
    cases answer : caller log call with
    | ok resp => exact ⟨[call], by simp, rfl, by simp [answer, Except.toOption]⟩
    | error e =>
      obtain ⟨more, -, made, fails⟩ := ih (some e) (log ++ [call])
      refine ⟨call :: more, by simp, ?_, ?_⟩
      · simpa using made
      · simpa using fails

theorem execNext_spec (caller : Caller) (body : Bytes) (instr : Instruction) (plan : ExecutionPlan)
    (asyncAck : Bool) (log : List Call) :
    ∃ more, more ≠ [] ∧ (execNext caller body instr plan asyncAck log).2 = log ++ more ∧
      (execNext caller body instr plan asyncAck log).1.toOption.isNone = lastFails caller (log ++ more) := by
  unfold execNext
  split_ifs
  · exact retryLoop_spec asyncAck _ none log
  · exact ⟨[_], by simp, rfl, by simp⟩

end

section

variable {rt : Runtime} {vm vm' : VM} {instr : Instruction}

@[simp]
theorem failed_setBody (body : Bytes) : (vm.setBody body).ctx.failed = vm.ctx.failed := rfl

@[simp]
theorem failed_setIp (ip : Nat) : (vm.setIp ip).ctx.failed = vm.ctx.failed := rfl

@[simp]
theorem failed_setCalls (calls : List Call) : (vm.setCalls calls).ctx.failed = vm.ctx.failed := rfl

@[simp]
theorem failed_advance : vm.advance.ctx.failed = vm.ctx.failed := rfl

@[simp]
theorem failed_hop : vm.hop.ctx.failed = vm.ctx.failed := rfl

@[simp]
theorem failed_answered (answer : Except String Bytes) :
    (vm.answered answer).ctx.failed = (answer.toOption.isNone || vm.ctx.failed) := by
  cases answer <;> rfl

@[simp]
theorem calls_answered (answer : Except String Bytes) : (vm.answered answer).calls = vm.calls := by
  cases answer <;> rfl

theorem failed_withBody (exec : Exec Bytes) : (vm.withBody exec).1.ctx.failed = vm.ctx.failed := by
  unfold withBody
  split <;> rfl

theorem dispatch_failed (other : isFallible instr.op = false) :
    (dispatch rt instr vm).1.ctx.failed = vm.ctx.failed := by
  cases op : instr.op <;> rw [op] at other <;> simp only [isFallible, Bool.true_eq_false] at other <;>
    simp only [dispatch, op]
  case parallel => exact failed_withBody _
  case collect => unfold opCollect; split <;> simp
  case gate => unfold opGate; split <;> simp
  case emit => rfl
  case drop => rfl
  case map => unfold opMap; split <;> simp
  case dag =>
      have kept : (vm.withBody (execDag rt.host rt.caller vm.ctx.body instr rt.plan)).1.ctx.failed =
        vm.ctx.failed := failed_withBody _
      unfold opDag
      split <;> rename_i done <;> rw [done] at kept <;> exact kept
  case jmp => unfold opJmp; dsimp only; split_ifs <;> simp
  case typeGuard => unfold opTypeGuard; (repeat' split) <;> rfl

theorem opNext_spec (rt : Runtime) (instr : Instruction) (isAsync : Bool) (vm : VM) :
    ∃ more, more ≠ [] ∧ (opNext rt instr isAsync vm).calls = vm.calls ++ more ∧
      (opNext rt instr isAsync vm).ctx.failed = (lastFails rt.caller (vm.calls ++ more) || vm.ctx.failed) := by
  obtain ⟨more, some, made, fails⟩ :=
    execNext_spec rt.caller vm.ctx.body instr rt.plan isAsync vm.calls
  refine ⟨more, some, ?_, ?_⟩
  · rw [opNext, calls_answered]
    exact made
  · simp [opNext, fails]

theorem execution_calling {more : List Call} (some : more ≠ [])
    (made : (dispatch rt instr vm.advance).1.calls = vm.calls ++ more) :
    (execution rt instr vm).called = true ∧
      (execution rt instr vm).failed = lastFails rt.caller (vm.calls ++ more) := by
  simp [execution, made, some]

open Executed

theorem touch_calling (fallible : isFallible instr.op = true) (other : instr.op ≠ .fallback)
    {more : List Call} (some : more ≠ [])
    (made : (dispatch rt instr vm.advance).1.calls = vm.calls ++ more)
    (flag : (dispatch rt instr vm.advance).1.ctx.failed = (lastFails rt.caller (vm.calls ++ more) || vm.ctx.failed)) :
    (dispatch rt instr vm.advance).1.ctx.failed =
      Latch.touch fails isFallback vm.ctx.failed (execution rt instr vm) := by
  have failed := (execution_calling some made).2
  have same : (execution rt instr vm).instr = instr := rfl
  rw [flag, Latch.touch, fails, isFallback, same, fallible, failed]
  cases lastFails rt.caller (vm.calls ++ more) <;> simp [other]

/-- A fallback calls its service if the flag is set, and the flag is then what this call says. -/
theorem fallback_spec (op : instr.op = .fallback) : (dispatch rt instr vm.advance).1.ctx.failed =
        Latch.touch fails isFallback vm.ctx.failed (execution rt instr vm) ∧
      ((execution rt instr vm).called = true ↔ vm.ctx.failed = true) := by
  have same : (execution rt instr vm).instr = instr := rfl
  have result : dispatch rt instr vm.advance = (opFallback rt instr vm.advance, .ok ()) := by
    simp only [dispatch, op]
  cases flag : vm.ctx.failed with
  | false =>
    have passes : opFallback rt instr vm.advance = vm.advance := by
      simp [opFallback, flag]
    have made : (dispatch rt instr vm.advance).1.calls = vm.calls := by
      rw [result, passes]
      rfl
    have silent : (execution rt instr vm).called = false ∧ (execution rt instr vm).failed = false := by
      simp [execution, made]
    simp [result, passes, flag, Latch.touch, fails, isFallback, same, op, silent]
  | true =>
    let cleared : VM := { vm.advance with ctx := { vm.advance.ctx with failed := false } }
    have tries : opFallback rt instr vm.advance = opNext rt instr false cleared := by
      simp [opFallback, flag, cleared]
    obtain ⟨more, some, made, flag'⟩ := opNext_spec rt instr false cleared
    have failed' : (opNext rt instr false cleared).ctx.failed =
        lastFails rt.caller (vm.calls ++ more) := flag'.trans (Bool.or_false _)
    obtain ⟨called, failed⟩ : (execution rt instr vm).called = true ∧
        (execution rt instr vm).failed = lastFails rt.caller (vm.calls ++ more) :=
      execution_calling some (by rw [result, tries]; exact made)
    refine ⟨?_, by simp [called]⟩
    rw [result, tries, failed', Latch.touch, fails, isFallback, same, op, failed]
    cases lastFails rt.caller (vm.calls ++ more) <;> simp [isFallible]

theorem dispatch_touch (rt : Runtime) (instr : Instruction) (vm : VM) : (dispatch rt instr vm.advance).1.ctx.failed =
      Latch.touch fails isFallback vm.ctx.failed (execution rt instr vm) := by
  have same : (execution rt instr vm).instr = instr := rfl
  cases fallible : isFallible instr.op with
  | false =>
    have other : instr.op ≠ .fallback := by
      intro op
      rw [op] at fallible
      cases fallible
    rw [dispatch_failed fallible]
    simp [Latch.touch, fails, isFallback, same, fallible, other]
  | true =>
    have attempt : ∀ isAsync, dispatch rt instr vm.advance = (opNext rt instr isAsync vm.advance, .ok ()) →
        instr.op ≠ .fallback → (dispatch rt instr vm.advance).1.ctx.failed =
          Latch.touch fails isFallback vm.ctx.failed (execution rt instr vm) := by
      intro isAsync result other
      obtain ⟨more, some, made, flag⟩ := opNext_spec rt instr isAsync vm.advance
      exact touch_calling fallible other some (by rw [result]; exact made) (by rw [result]; exact flag)
    cases op : instr.op <;> rw [op] at fallible <;> simp only [isFallible, Bool.false_eq_true] at fallible
    case next => exact attempt false (by simp only [dispatch, op]) (by simp [op])
    case async => exact attempt true (by simp only [dispatch, op]) (by simp [op])
    case fallback => exact (fallback_spec op).1
    case svcCall =>
        have result : dispatch rt instr vm.advance = (opSvcCall rt instr vm.advance, .ok ()) := by
          simp only [dispatch, op]
        refine touch_calling (by rw [op]; rfl) (by simp [op])
          (cons_ne_nil ⟨instr.a, vm.ctx.body, instr.timeoutMs⟩ []) ?_ ?_
        · rw [result, opSvcCall, calls_answered]
          rfl
        · rw [result, opSvcCall, failed_answered, lastFails_concat]
          rfl

/-- The flag of the context is the one of the trace, and every fallback in the trace called its service if the flag was
set. -/
structure Flagged (vm : VM) (trace : List Executed) : Prop where
  flag : vm.ctx.failed = Latch.after Executed.fails Executed.isFallback trace
  called : ∀ before x later, trace = before ++ x :: later → x.isFallback = true →
    (x.called = true ↔ Latch.after Executed.fails Executed.isFallback before = true)

theorem Flagged.step {trace trace' : List Executed} (flagged : Flagged vm trace)
    (move : (tracing rt).Step (vm, trace) (vm', trace')) : Flagged vm' trace' := by
  obtain ⟨move, rfl⟩ := Machine.recording_step_iff.mp move
  obtain ⟨instr, here, dispatched⟩ := runLoop_step.mp move
  have noted : traced rt vm = [execution rt instr vm] := by simp only [traced, here]
  simp only [noted]
  constructor
  case flag =>
    rw [Latch.after_concat, ← flagged.flag, ← dispatch_touch, dispatched]
  case called =>
    refine Splits.forall_concat.mpr ⟨fun isFallback => ?_, flagged.called⟩
    rw [← flagged.flag]
    exact (fallback_spec (of_decide_eq_true isFallback)).2

theorem flagged_of_reaches {body : Bytes} {trace : List Executed}
    (reached : (tracing rt).Reaches (init (.fromBody body), []) (vm, trace)) : Flagged vm trace := by
  have start : Flagged (init (.fromBody body)) [] := ⟨rfl, by simp⟩
  exact Machine.always_of_invariant (P := fun s => Flagged s.1 s.2) start Flagged.step _ reached

/-- In every run, the fallbacks executed so far are called exactly for the instruction before them, if and only if each
of them that follows a failure follows it at once. -/
theorem routed_iff {body : Bytes} {trace : List Executed}
    (reached : (tracing rt).Reaches (init (.fromBody body), []) (vm, trace)) :
    Routed trace ↔ Prompt trace := by
  have flagged := flagged_of_reaches reached
  rw [Prompt, ← Latch.prompt_iff]
  refine forall₅_congr fun before x later split isFallback => ?_
  rw [flagged.called before x later split isFallback]

end

def allBut (down : UInt16) : Caller := fun _ call =>
  if call.svcId = down then .error "down" else .ok [call.svcId.toUInt8]

def allButRuntime (down : UInt16) (nodes : List ASTNode) : Runtime :=
  ⟨.mute, .inOrder, Compiler.ascii.planOf nodes "r", allBut down⟩

/-- A call that fails, and the fallback right after it. -/
theorem routed_next_fallback : ∃ vm trace, Compiler.ascii.compile [.next "a", .fallback "b"] "r" =
        .ok (Compiler.ascii.planOf [.next "a", .fallback "b"] "r") ∧
      (tracing (allButRuntime 0 [.next "a", .fallback "b"])).Reaches (init (.fromBody [7]), []) (vm, trace) ∧
      vm.calls = [⟨0, [7], 0⟩, ⟨1, [7], 0⟩] ∧ Routed trace := by
  have reached : (tracing (allButRuntime 0 [.next "a", .fallback "b"])).Reaches
      (init (.fromBody [7]), []) _ := .tail (.single rfl) rfl
  refine ⟨_, _, rfl, reached, rfl, (routed_iff reached).mpr ?_⟩
  intro before x idle y later split _ _ _
  have length : 2 = (before ++ x :: idle ++ y :: later).length := congrArg List.length split
  simp only [length_append, length_cons] at length
  exact length_eq_zero_iff.mp (by omega)

/-- `a` fails and `b` answers, but the fallback of `b` is called. -/
theorem fallback_for_earlier_failure : ∃ vm trace, Compiler.ascii.compile [.next "a", .next "b", .fallback "c"] "r" =
        .ok (Compiler.ascii.planOf [.next "a", .next "b", .fallback "c"] "r") ∧
      (tracing (allButRuntime 0 [.next "a", .next "b", .fallback "c"])).Reaches (init (.fromBody [7]), []) (vm, trace) ∧
      vm.calls = [⟨0, [7], 0⟩, ⟨1, [7], 0⟩, ⟨2, [1], 0⟩] ∧ ¬ Routed trace := by
  have reached : (tracing (allButRuntime 0 [.next "a", .next "b", .fallback "c"])).Reaches
      (init (.fromBody [7]), []) _ := .tail (.tail (.single rfl) rfl) rfl
  refine ⟨_, _, rfl, reached, rfl, ?_⟩
  intro routed
  obtain ⟨last, found, fails⟩ := (routed _ _ [] rfl (by decide)).mp (by decide)
  obtain rfl := Option.some.inj found
  revert fails
  decide

end FlowRulZ.VM
