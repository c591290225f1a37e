import FlowRulZ.Executor.VM

/-! # Calls are only added

Whatever an instruction does, the calls made before it stay, in their order.
-/

namespace FlowRulZ

open List

def AddsCalls {α : Type} (exec : List Call → α × List Call) : Prop := ∀ log, log <+: (exec log).2

section

variable (caller : Caller)

theorem retryLoop_adds (call : Call) (asyncAck : Bool) (left : Nat) :
    ∀ lastErr, AddsCalls (retryLoop caller call asyncAck lastErr left) := by
  induction left with
  | zero => exact fun _ log => prefix_rfl
  | succ left ih =>
    intro lastErr log
    rw [retryLoop]
    cases caller log call with
    | ok resp => exact prefix_append _ _
    | error e => exact (prefix_append log [call]).trans (ih (some e) (log ++ [call]))

theorem emitLoop_adds (body : Bytes) (entries : List ServiceEntry) (count : Nat) :
    ∀ index, AddsCalls (emitLoop caller body entries index count) := by
  induction count with
  | zero => exact fun _ log => prefix_rfl
  | succ count ih =>
    intro index log
    rw [emitLoop]
    cases entries[index]? with
    | none => exact prefix_rfl
    | some entry =>
      dsimp only
      cases caller log ⟨entry.id, body, 0⟩ with
      | error e => exact prefix_append _ _
      | ok resp => exact (prefix_append log _).trans (ih (index + 1) _)

theorem thread_adds (body : Bytes) (svcs : List UInt16) (i : Nat) (parts : Parts) :
    AddsCalls (thread caller body svcs i parts) := by
  intro log
  unfold thread
  split
  · dsimp only
    split
    · exact prefix_append _ _
    · exact prefix_append _ _
  · exact prefix_rfl

theorem threads_adds (body : Bytes) (svcs : List UInt16) (order : List Nat) :
    ∀ parts, AddsCalls (threads caller body svcs order parts) := by
  induction order with
  | nil => exact fun _ log => prefix_rfl
  | cons i order ih =>
    intro parts log
    exact (thread_adds caller body svcs i parts log).trans (ih _ _)

end

theorem execParallel_adds (host : Host) (scheduler : Scheduler) (caller : Caller) (body : Bytes)
    (instr : Instruction) (plan : ExecutionPlan) : AddsCalls (execParallel host scheduler caller body instr plan) := by
  intro log
  unfold execParallel
  dsimp only
  split
  · exact prefix_rfl
  · have grown := threads_adds caller body
    split
    · exact grown _ _ _ log
    · exact grown _ _ _ log

section

variable (host : Host) (caller : Caller) (body : Bytes)

theorem dagStep_adds (dag : DAGTable) (svcId : UInt16)
    (st : DagState) : AddsCalls (dagStep host caller body dag svcId st) := by
  intro log
  unfold dagStep
  split
  · exact prefix_rfl
  split
  · exact prefix_rfl
  split
  · exact prefix_rfl
  dsimp only
  split
  · exact prefix_append _ _
  · split
    · exact prefix_append _ _
    · exact prefix_append _ _

theorem dagLoop_adds (dag : DAGTable) (ids : List UInt16) : ∀ st, AddsCalls (dagLoop host caller body dag ids st) := by
  induction ids with
  | nil => exact fun _ log => prefix_rfl
  | cons id ids ih =>
    intro st log
    have first := dagStep_adds host caller body dag id st log
    rw [dagLoop]
    split
    · rename_i stopped
      rw [stopped] at first
      exact first
    · rename_i passed
      rw [passed] at first
      exact first.trans (ih _ _)

theorem execDag_adds (instr : Instruction) (plan : ExecutionPlan) :
    AddsCalls (execDag host caller body instr plan) := by
  intro log
  unfold execDag
  split
  · exact prefix_rfl
  · rename_i dag _
    have grown := dagLoop_adds host caller body dag dag.layers.flatten {} log
    split
    · rename_i stopped
      rw [stopped] at grown
      exact grown
    · rename_i passed
      rw [passed] at grown
      exact grown

end

namespace VM

variable {rt : Runtime} {instr : Instruction} {vm vm' : VM}

theorem answered_calls (vm : VM) (answer : Except String Bytes) : (vm.answered answer).calls = vm.calls := by
  cases answer <;> rfl

theorem opNext_adds (instr : Instruction) (isAsync : Bool) (vm : VM) :
    vm.calls <+: (opNext rt instr isAsync vm).calls := by
  rw [opNext, answered_calls]
  unfold execNext
  split
  · exact retryLoop_adds _ _ _ _ _ _
  · exact prefix_append _ _

theorem withBody_adds {exec : Exec Bytes} (adds : AddsCalls exec) (vm : VM) :
    vm.calls <+: (vm.withBody exec).1.calls := by
  have grown := adds vm.calls
  unfold withBody
  split
  · rename_i passed
    rw [passed] at grown
    exact grown
  · rename_i failed
    rw [failed] at grown
    exact grown

theorem dispatch_adds (rt : Runtime) (instr : Instruction) (vm : VM) : vm.calls <+: (dispatch rt instr vm).1.calls := by
  unfold dispatch
  cases instr.op with
  | next | async => exact opNext_adds _ _ _
  | parallel => exact withBody_adds (execParallel_adds _ _ _ _ _ _) vm
  | collect =>
    dsimp only [opCollect]
    split <;> exact prefix_rfl
  | fallback =>
    dsimp only [opFallback]
    split
    · exact opNext_adds instr false { vm with ctx := { vm.ctx with failed := false } }
    · exact prefix_rfl
  | gate =>
    dsimp only [opGate]
    split <;> exact prefix_rfl
  | emit => exact emitLoop_adds _ _ _ _ _ _
  | map =>
    dsimp only [opMap]
    split <;> exact prefix_rfl
  | dag =>
    have grown := withBody_adds (execDag_adds rt.host rt.caller vm.ctx.body instr rt.plan) vm
    dsimp only [opDag]
    split
    · rename_i passed
      rw [passed] at grown
      exact grown
    · rename_i failed
      rw [failed] at grown
      exact grown
  | jmp =>
    dsimp only [opJmp]
    split <;> exact prefix_rfl
  | typeGuard =>
    dsimp only [opTypeGuard]
    repeat' split
    all_goals exact prefix_rfl
  | svcCall =>
    dsimp only [opSvcCall]
    rw [answered_calls]
    exact prefix_append _ _
  | drop | key | label | svcArg | jumpOffset | buffer | chunk | delay => exact prefix_rfl

theorem step_adds (move : (runLoop rt).Step vm vm') : vm.calls <+: vm'.calls := by
  obtain ⟨instr, -, dispatched⟩ := runLoop_step.mp move
  have grown := dispatch_adds rt instr vm.advance
  rw [dispatched] at grown
  exact grown

theorem halt_adds {result : Outcome} (halted : (runLoop rt).next vm = .inr result) :
    vm.calls <+: result.1.calls := by
  rcases runLoop_halt.mp halted with ⟨-, rfl⟩ | ⟨instr, vm', e, -, failed, rfl⟩
  · exact prefix_rfl
  · have grown := dispatch_adds rt instr vm.advance
    rw [failed] at grown
    exact grown

/-- The calls a run makes, also in the instruction it fails at. -/
def Makes (rt : Runtime) (ctx : ExecutionContext) (calls : List Call) : Prop :=
  (runLoop rt).Shows VM.calls (fun result => result.1.calls) (init ctx) calls

end VM

end FlowRulZ
