import FlowRulZ.Dsl.Layout
import FlowRulZ.Lib.Format
import FlowRulZ.Node.Turns

/-! # Executing a plan and running it

`executePlan` ends as `VM::run` does, with the same calls, if the run starts with an empty
body.  It never passes the body of the message on, it takes a delay for an error, and what
a step calls by itself, for a parallel or a DAG, finds nobody to call.
-/

namespace FlowRulZ

namespace Node

open List

def executesAlike (instr : Instruction) : Bool :=
  match instr.op with
  | .emit | .delay | .parallel | .dag => false
  | .async => !instr.hasRetry
  | _ => true

/-- The next instruction is executed alike, and the context fits the buffer. -/
def ExecutesAlike (wire : Wire) (plan : ExecutionPlan) (vm : VM) : Prop :=
  (plan.instructions[vm.ctx.ip]?).all executesAlike = true ∧ Fits wire vm.ctx

instance (wire : Wire) (plan : ExecutionPlan) : DecidablePred (ExecutesAlike wire plan) :=
  fun _ => inferInstanceAs (Decidable (_ ∧ _ ≤ _))

theorem ExecutesAlike.instr {wire : Wire} {plan : ExecutionPlan} {vm : VM} {instr : Instruction}
    (alike : ExecutesAlike wire plan vm) (here : plan.instructions[vm.ctx.ip]? = some instr) :
    executesAlike instr = true := by
  simpa [here] using alike.1

theorem executesAlike_call {instr : Instruction} (alike : executesAlike instr = true)
    (call : VM.isCall instr.op = true) : VM.stepsAlike instr = true := by
  cases op : instr.op <;> simp_all [executesAlike, VM.isCall, VM.stepsAlike]

theorem executesAlike_local {instr : Instruction} (alike : executesAlike instr = true)
    (noCall : VM.isCall instr.op = false) :
    VM.callsNothing instr.op = true ∧ instr.op ≠ .delay := by
  cases op : instr.op <;> simp_all [executesAlike, VM.isCall, VM.callsNothing]

/-- An execution ends as a run: with its body, or both with an error, and with its calls. -/
def EndsAs (names : Names) (out : Except String Bytes) (log : List Effect)
    (outcome : VM.Outcome) : Prop :=
  out.toOption = (outcome.2.map fun _ => outcome.1.ctx.body).toOption ∧
    serviceCalls log = outcome.1.calls.map (serviceCall names)

section

variable {node : ProdNode} {plan : ExecutionPlan} {bytes ctxBytes : Bytes} {resp : Option Bytes}
  {names : Names} {st : ExecState} {log : List Effect}
  {answers : List ServiceCall → ServiceCall → Bytes}

/-- Services that answer every call, asked by number. -/
def replies (names : Names) (answers : List ServiceCall → ServiceCall → Bytes)
    (calls : List Call) (call : Call) : Bytes :=
  answers (calls.map (serviceCall names)) (serviceCall names call)

def runtime (node : ProdNode) (plan : ExecutionPlan) (names : Names)
    (answers : List ServiceCall → ServiceCall → Bytes) : Runtime :=
  ⟨node.host, node.scheduler, plan, VM.replying (replies names answers)⟩

/-- Bytes, response and effects of an execution that is where a run is. -/
structure At (wire : Wire) (names : Names) (ctxBytes : Bytes)
    (resp : Option Bytes) (log : List Effect) (vm : VM) : Prop where
  fine : vm.ctx.failed = false
  resumed : Resumed wire ctxBytes resp vm.ctx
  calls : serviceCalls log = vm.calls.map (serviceCall names)

theorem runSteps_turn {now : Turn} (left : Nat)
    (turned : ∀ step, turn node bytes names step ctxBytes resp st log = now) :
    match now.next names (maxExecutionSteps - (left + 1)) with
    | .inl pos => ∃ st' log', serviceCalls log' = serviceCalls log ++ now.calls names ∧
        runSteps node bytes names (left + 1) ctxBytes resp st log = runSteps node bytes names left pos.1 pos.2 st' log'
    | .inr result => (runSteps node bytes names (left + 1) ctxBytes resp st log).1 = result ∧
        serviceCalls (runSteps node bytes names (left + 1) ctxBytes resp st log).2.2 =
          serviceCalls log ++ now.calls names := by
  simp only [runSteps_succ, turned]
  cases now.next names (maxExecutionSteps - (left + 1)) with
  | inl pos => exact ⟨_, _, by rw [serviceCalls_append, serviceCalls_effects], rfl⟩
  | inr result => exact ⟨rfl, by rw [serviceCalls_append, serviceCalls_effects]⟩

variable (stored : node.wire.readPlan bytes = some plan) (version : plan.version = bytecodeVersion)
  (answered : ∀ log call, node.callService log call = .ok (answers (serviceCalls log) call))
  (uncancelled : ∀ step, node.cancelled step = none)

include stored version answered uncancelled

omit answered in
theorem runSteps_halt {left : Nat} {vm : VM} {outcome : VM.Outcome}
    (at_ : At node.wire names ctxBytes resp log vm) (alike : ExecutesAlike node.wire plan vm)
    (halted : (VM.runLoop (runtime node plan names answers)).next vm = .inr outcome) :
    EndsAs names (runSteps node bytes names (left + 1) ctxBytes resp st log).1
      (runSteps node bytes names (left + 1) ctxBytes resp st log).2.2 outcome := by
  rcases VM.runLoop_halt.mp halted with ⟨outside, rfl⟩ | ⟨instr, vm', e, here, dispatched, rfl⟩
  · have turned step : turn node bytes names step ctxBytes resp st log = .done vm.ctx.body := by
      simp only [turn, uncancelled, executeStep_ended stored version at_.resumed outside alike.2, if_true]
    obtain ⟨out, same⟩ := runSteps_turn left turned
    exact ⟨congrArg Except.toOption out, (same.trans (append_nil _)).trans at_.calls⟩
  · cases call : VM.isCall instr.op with
    | true =>
      rw [runtime, VM.dispatch_replying call (executesAlike_call (alike.instr here) call)] at dispatched
      cases dispatched
    | false =>
      obtain ⟨quiet, noDelay⟩ := executesAlike_local (alike.instr here) call
      obtain ⟨-, kept, stepped⟩ := executeStep_dispatch stored version at_.resumed here quiet
        noDelay at_.fine dispatched
      have code : (StepOutput.ofStep node.wire (vm', .error e)).result < 0 := by
        cases e <;> simp [StepOutput.ofStep, StepOutput.failed, FfiError.code]
      have turned step : turn node bytes names step ctxBytes resp st log =
          .unexpected (StepOutput.ofStep node.wire (vm', .error e)).result := by
        simp only [turn, uncancelled, stepped, Except.map]
        rw [if_neg (by omega), if_neg (by omega), if_neg (by omega)]
      obtain ⟨out, same⟩ := runSteps_turn left turned
      refine ⟨congrArg Except.toOption out, ?_⟩
      rw [same, at_.calls, kept]
      exact append_nil _

/-- A move of the run is a step of the execution, which may be the last one. -/
theorem runSteps_move {left : Nat} {vm vm' : VM}
    (at_ : At node.wire names ctxBytes resp log vm) (alike : ExecutesAlike node.wire plan vm)
    (move : (VM.runLoop (runtime node plan names answers)).Step vm vm')
    (fits : Fits node.wire vm'.ctx) :
    (∃ ctxBytes' resp' st' log', At node.wire names ctxBytes' resp' log' vm' ∧
      runSteps node bytes names (left + 1) ctxBytes resp st log =
        runSteps node bytes names left ctxBytes' resp' st' log') ∨
    (plan.instructions[vm'.ctx.ip]? = none ∧ EndsAs names (runSteps node bytes names (left + 1) ctxBytes resp st log).1
        (runSteps node bytes names (left + 1) ctxBytes resp st log).2.2 (vm', .ok ())) := by
  obtain ⟨instr, here, dispatched⟩ := VM.runLoop_step.mp move
  cases call : VM.isCall instr.op with
  | true =>
    left
    rw [runtime, VM.dispatch_replying call (executesAlike_call (alike.instr here) call)] at dispatched
    cases dispatched
    have turned step : turn node bytes names step ctxBytes resp st log = .answered (VM.pendingCall instr vm)
        (node.wire.ctxBytes vm.ctx) (replies names answers vm.calls (VM.pendingCall instr vm)) := by
      simp only [turn, uncancelled, executeStep_call stored version at_.resumed here call alike.2, answered,
        serviceCalls_append, serviceCalls_announcing, append_nil, at_.calls, one_ne_zero, if_false, if_true]
      rfl
    obtain ⟨st', log', logged, same⟩ := runSteps_turn left turned
    refine ⟨_, _, st', log', ⟨at_.fine, ⟨_, node.wire.context_ctxBytes _, rfl⟩, ?_⟩, same⟩
    rw [logged, at_.calls]
    change _ = (vm.calls ++ [VM.pendingCall instr vm]).map (serviceCall names)
    rw [map_append]
    rfl
  | false =>
    obtain ⟨quiet, noDelay⟩ := executesAlike_local (alike.instr here) call
    obtain ⟨fine, kept, stepped⟩ := executeStep_dispatch stored version at_.resumed here quiet
      noDelay at_.fine dispatched
    by_cases outside : plan.instructions.length ≤ vm'.ctx.ip
    · right
      simp only [Except.map, outside, if_true, StepOutput.ofStep, StepOutput.ofResult,
        Nat.not_lt.mpr fits.body, if_false, fits.withCtx] at stepped
      have turned step : turn node bytes names step ctxBytes resp st log = .done vm'.ctx.body := by
        simp only [turn, uncancelled, stepped, if_true]
      obtain ⟨out, same⟩ := runSteps_turn left turned
      refine ⟨getElem?_eq_none outside, congrArg Except.toOption out, ?_⟩
      rw [same, at_.calls, kept]
      exact append_nil _
    · left
      simp only [Except.map, outside, if_false, StepOutput.ofStep, StepOutput.ofResult, fits.withCtx] at stepped
      have turned step : turn node bytes names step ctxBytes resp st log = .continued (node.wire.ctxBytes vm'.ctx) := by
        simp only [turn, uncancelled, stepped]
        rfl
      obtain ⟨st', log', logged, same⟩ := runSteps_turn left turned
      refine ⟨_, none, st', log', ⟨fine, ⟨_, node.wire.context_ctxBytes _, rfl⟩, ?_⟩, same⟩
      rw [logged, at_.calls, kept]
      exact append_nil _

/-- By induction on the steps left: one step of the execution for one of the run, but a step that leaves the plan ends
the execution at once. -/
theorem runSteps_endsAs (left : Nat) : ∀ {ctxBytes resp st log vm outcome}, At node.wire names ctxBytes resp log vm →
      (VM.runLoop (runtime node plan names answers)).Always (ExecutesAlike node.wire plan) vm →
      (VM.runLoop (runtime node plan names answers)).run left vm = some outcome →
      EndsAs names (runSteps node bytes names left ctxBytes resp st log).1
        (runSteps node bytes names left ctxBytes resp st log).2.2 outcome := by
  induction left with
  | zero => intro _ _ _ _ _ _ _ _ ran; cases ran
  | succ left ih =>
    intro ctxBytes resp st log vm outcome at_ alike ran
    rcases Machine.run_succ.mp ran with halted | ⟨vm', move, later⟩
    · exact runSteps_halt stored version uncancelled at_ alike.here halted
    · have onward := alike.step move
      rcases runSteps_move stored version answered uncancelled at_ alike.here move onward.here.2
        with ⟨ctxBytes', resp', st', log', at', same⟩ | ⟨outside, ended⟩
      · rw [same]
        exact ih at' onward later
      · -- the run has only to notice that it is behind the plan
        have halted : (VM.runLoop (runtime node plan names answers)).next vm' = .inr (vm', .ok ()) :=
          VM.runLoop_halt.mpr (.inl ⟨outside, rfl⟩)
        have same : outcome = (vm', .ok ()) :=
          (Machine.exists_run_iff.mp ⟨left, later⟩).unique ⟨vm', .refl, halted⟩
        rw [same]
        exact ended

omit answered uncancelled in
theorem planNames_eq (small : (node.wire.servicesJson plan.services.rows).length ≤ planBufferSize) :
    planNames node bytes = nameMap plan.services.rows := by
  have filled : bytes.isEmpty = false := by
    cases bytes with
    | nil => rw [node.wire.readPlan_nil] at stored; cases stored
    | cons _ _ => rfl
  simp only [planNames, planServices, filled, Bool.false_eq_true, if_false, flowrulzPlanServices,
    stored, version, ne_eq, not_true_eq_false, take_of_length_le small,
    node.wire.readServices_servicesJson]

end

/-- Whatever the body of the message is, a plan is executed as `VM::run` runs it on an empty body: with the same calls
and the same end, if all instructions on the way are executed alike and all contexts fit their buffer. -/
theorem executePlan_endsAs {c : Compiler} {nodes : List ASTNode} {ruleId : String}
    {node : ProdNode} {plan : ExecutionPlan} {bytes : Bytes}
    {answers : List ServiceCall → ServiceCall → Bytes} {outcome : VM.Outcome}
    (compiled : c.compile nodes ruleId = .ok plan) (stored : node.wire.readPlan bytes = some plan)
    (small : (node.wire.servicesJson plan.services.rows).length ≤ planBufferSize)
    (answered : ∀ log call, node.callService log call = .ok (answers (serviceCalls log) call))
    (uncancelled : ∀ step, node.cancelled step = none)
    (alike : (VM.runLoop (runtime node plan (nameMap plan.services.rows) answers)).Always
      (ExecutesAlike node.wire plan) (VM.init (.fromBody [])))
    (ran : (VM.runLoop (runtime node plan (nameMap plan.services.rows) answers)).run
      maxExecutionSteps (VM.init (.fromBody [])) = some outcome)
    (body : Bytes) :
    EndsAs (nameMap plan.services.rows) (executePlan node bytes body).1 (executePlan node bytes body).2 outcome := by
  have version : plan.version = bytecodeVersion := Compiler.compile_version compiled
  have silent : serviceCalls (if node.hasStateStore then [.create {}] else []) = [] := by
    split_ifs <;> rfl
  have start : At node.wire (nameMap plan.services.rows) [] none
      (if node.hasStateStore then [.create {}] else []) (VM.init (.fromBody [])) :=
    ⟨rfl, ⟨_, rfl, rfl⟩, silent⟩
  have steps : EndsAs (nameMap plan.services.rows)
      (runSteps node bytes (nameMap plan.services.rows) maxExecutionSteps [] none {} _).1 _ outcome :=
    runSteps_endsAs stored version answered uncancelled maxExecutionSteps start alike ran
  simp only [executePlan, planNames_eq stored version small]
  rcases stepped : runSteps node bytes (nameMap plan.services.rows) maxExecutionSteps [] none {}
    (if node.hasStateStore then [.create {}] else []) with ⟨_ | _, st, log⟩ <;> rw [stepped] at steps
  · exact ⟨steps.1, by simpa using steps.2⟩
  · exact ⟨steps.1, by simpa using steps.2⟩

def ctxFormat : Format ExecutionContext :=
  ((Format.many .byte).both ((Format.many .text).both (Format.nat.both (Format.nat.both .nat)))).via
    (fun ctx => (ctx.body, ctx.errors, ctx.failed.toNat, ctx.hopCount.toNat, ctx.ip))
    (fun (body, errors, failed, hopCount, ip) => ⟨body, failed == 1, errors, .ofNat hopCount, ip⟩)
    (by rintro ⟨body, _ | _, errors, hopCount, ip⟩ <;> simp)

def servicesFormat : Format (List ServiceEntry) :=
  .many ((Format.nat.both .text).via (fun entry => (entry.id.toNat, entry.name))
    (fun (id, name) => ⟨.ofNat id, name⟩) (by simp))

theorem body_lt_ctxFormat (ctx : ExecutionContext) : ctx.body.length < (ctxFormat.write ctx).length := by
  have longer := Format.length_writeList .byte ctx.body
  simp only [ctxFormat, Format.via, Format.both, Format.many, length_append]
  omega

def wireOf (plan : ExecutionPlan) : Wire where
  readPlan bytes := if bytes.isEmpty then none else some plan
  readPlan_nil := rfl
  ctxBytes := ctxFormat.write
  readCtx := ctxFormat.readAll
  readCtx_ctxBytes := ctxFormat.readAll_write
  ctxBytes_body := body_lt_ctxFormat
  servicesJson := servicesFormat.write
  readServices := servicesFormat.readAll
  readServices_servicesJson := servicesFormat.readAll_write

/-- A node without store and saga, whose services put the number of calls made before in front of the body. -/
def counting (nodes : List ASTNode) : ProdNode where
  hasStateStore := false
  hasSaga := false
  callService log call := .ok (.ofNat (serviceCalls log).length :: call.body)
  cancelled _ := none
  wire := wireOf (Compiler.ascii.planOf nodes "r")
  host := .mute
  scheduler := .inOrder

def counted (calls : List ServiceCall) (call : ServiceCall) : Bytes := .ofNat calls.length :: call.body

def countingRuntime (nodes : List ASTNode) : Runtime :=
  runtime (counting nodes) (Compiler.ascii.planOf nodes "r")
    (nameMap (Compiler.ascii.planOf nodes "r").services.rows) counted

/-- Two calls, for a message with body 7 that no service gets to see. -/
theorem executePlan_endsAs_calls : EndsAs (nameMap (Compiler.ascii.planOf [.next "a", .async "b.m"] "r").services.rows)
      (executePlan (counting [.next "a", .async "b.m"]) [0] [7]).1
      (executePlan (counting [.next "a", .async "b.m"]) [0] [7]).2
      (⟨⟨[1, 0], false, [], 2, 2⟩, [⟨0, [], 0⟩, ⟨1, [0], 0⟩]⟩, .ok ()) := by
  have compiled : Compiler.ascii.compile [.next "a", .async "b.m"] "r" =
      .ok (Compiler.ascii.planOf [.next "a", .async "b.m"] "r") := rfl
  have answered : ∀ log call, (counting [.next "a", .async "b.m"]).callService log call =
      .ok (counted (serviceCalls log) call) := fun _ _ => rfl
  refine executePlan_endsAs compiled rfl (by decide +kernel) answered (fun _ => rfl) ?_ ?_ [7]
  · exact Machine.always_of_check 10 (by decide +kernel)
  · decide +kernel

/-- The body of a message does not reach the first service, and a delay is an error. -/
theorem executePlan_differs : (Compiler.ascii.compile [.next "a"] "r" = .ok (Compiler.ascii.planOf [.next "a"] "r") ∧
      VM.Runs (countingRuntime [.next "a"]) (.fromBody [7]) (⟨⟨[0, 7], false, [], 1, 1⟩, [⟨0, [7], 0⟩]⟩, .ok ()) ∧
      (executePlan (counting [.next "a"]) [0] [7]).1 = .ok [0] ∧
      serviceCalls (executePlan (counting [.next "a"]) [0] [7]).2 = [⟨"a", "", [], 0⟩]) ∧
    (Compiler.ascii.compile [.delay 5] "r" = .ok (Compiler.ascii.planOf [.delay 5] "r") ∧
      VM.Runs (countingRuntime [.delay 5]) (.fromBody []) (⟨⟨[], false, [], 0, 1⟩, []⟩, .ok ()) ∧
      (executePlan (counting [.delay 5]) [0] []).1 =
        .error "step 0: unexpected step result 3 (ctx truncated or invalid)") := by
  refine ⟨⟨rfl, ?_, ?_, ?_⟩, rfl, ?_, ?_⟩
  · exact Machine.exists_run_iff.mp ⟨10, rfl⟩
  · decide +kernel
  · decide +kernel
  · exact Machine.exists_run_iff.mp ⟨10, rfl⟩
  · decide +kernel

end Node

end FlowRulZ
