import FlowRulZ.Dsl.FanOut
import FlowRulZ.Executor.Fallback

/-! # Failed calls

A failed call should set the flag and let the run go on.  This is so for single calls; a
parallel, an emit and a graph either end the run with the error or forget the failure.
-/

namespace FlowRulZ

open List

section

variable (caller : Caller)

variable {body : Bytes} {host : Host} {dag : DAGTable}

theorem dagLoop_fails (bodies : ∀ node ∈ dag.nodes, node.parentIds = [] ∨ ∃ value, host.fromSlice body = .ok value)
    (order : List UInt16) : ∀ st log, ∃ more, (dagLoop host caller body dag order st log).2 = log ++ more ∧
        ((∃ st', (dagLoop host caller body dag order st log).1 = .ok st') ↔
          anyFails caller log more = false ∨ dag.failurePolicy ≠ .abortAll) := by
  induction order with
  | nil => exact fun st log => ⟨[], by simp [dagLoop], by simp [dagLoop, anyFails]⟩
  | cons id order ih =>
    intro st log
    unfold dagLoop
    cases found : dag.nodes.find? (·.serviceId = id) with
    | none =>
      simp only [dagStep, found]
      exact ih st log
    | some node =>
      have listed : node ∈ dag.nodes := mem_of_find?_eq_some found
      have built : ∃ data, callBody host body node id st = .ok data := by
        unfold callBody
        rcases bodies node listed with bare | ⟨value, json⟩
        · exact ⟨body, by simp [bare]⟩
        · simp only [json]
          split_ifs
          · exact ⟨_, rfl⟩
          · exact ⟨_, rfl⟩
      obtain ⟨data, built⟩ := built
      generalize made : dagCall dag id data = call
      rcases dagStep_cases found built made caller log with ⟨-, -, step⟩ | ⟨-, ⟨policy, ⟨e, answer⟩, e', step⟩ |
        ⟨fine, step⟩⟩ <;> simp only [step]
      · exact ih (st.fail id) log
      · refine ⟨[call], rfl, ?_⟩
        simp [policy, anyFails, answer, Except.toOption]
      · obtain ⟨more, logged, ends⟩ := ih (st.note id (caller log call)) (log ++ [call])
        refine ⟨call :: more, by simpa using logged, ?_⟩
        rw [ends]
        by_cases policy : dag.failurePolicy = .abortAll
        · obtain ⟨resp, answer⟩ := fine policy
          simp [anyFails, answer, Except.toOption]
        · simp [policy]

variable {plan : ExecutionPlan} {instr : Instruction}

theorem lastWinsEntries_ok (st : DagState) (ids : List UInt16) (named : ∀ id ∈ ids, (plan.services.get? id).isSome) :
    ∃ entries, lastWinsEntries plan st ids = .ok entries := by
  induction ids with
  | nil => exact ⟨[], rfl⟩
  | cons id ids ih =>
    obtain ⟨entries, rest⟩ := ih fun other later => named other (mem_cons_of_mem _ later)
    obtain ⟨entry, found⟩ := Option.isSome_iff_exists.mp (named id mem_cons_self)
    have name : serviceName plan id = .ok entry.name := by simp only [serviceName, found]
    unfold lastWinsEntries
    rw [rest, name]
    split_ifs
    · exact ⟨_, rfl⟩
    · cases st.result? id with
      | none => exact ⟨_, rfl⟩
      | some resp => exact ⟨_, rfl⟩

theorem explicitMap_ok (host : Host) (st : DagState) (ids : List UInt16)
    (named : ∀ id ∈ ids, (plan.services.get? id).isSome) :
    ∀ merged, ∃ fields, explicitMap host plan st merged ids = .ok fields := by
  induction ids with
  | nil => exact fun merged => ⟨merged, rfl⟩
  | cons id ids ih =>
    intro merged
    have rest := ih fun other later => named other (mem_cons_of_mem _ later)
    obtain ⟨entry, found⟩ := Option.isSome_iff_exists.mp (named id mem_cons_self)
    have name : serviceName plan id = .ok entry.name := by simp only [serviceName, found]
    unfold explicitMap
    rw [name]
    split_ifs
    · exact rest _
    · cases st.result? id with
      | none => exact rest _
      | some resp =>
        dsimp only
        cases host.fromSlice resp with
        | ok value => exact rest _
        | error e => exact rest _

theorem mergeDagResults_ok (host : Host) (st : DagState)
    (named : ∀ id ∈ dag.terminalNodes, (plan.services.get? id).isSome) :
    ∃ body, mergeDagResults host plan dag st = .ok body := by
  unfold mergeDagResults
  cases dag.mergeStrategy with
  | arrayConcat => exact ⟨_, rfl⟩
  | deepMerge => exact ⟨_, rfl⟩
  | explicitMap =>
    obtain ⟨fields, ok⟩ := explicitMap_ok host st dag.terminalNodes named []
    simp only [ok]
    exact ⟨_, rfl⟩
  | lastWins =>
    obtain ⟨entries, ok⟩ := lastWinsEntries_ok st dag.terminalNodes named
    simp only [ok]
    exact ⟨_, rfl⟩

theorem execDag_fails (log : List Call) (table : plan.dagTables[instr.a.toNat]? = some dag)
    (bodies : ∀ node ∈ dag.nodes, node.parentIds = [] ∨ ∃ value, host.fromSlice body = .ok value)
    (named : ∀ id ∈ dag.terminalNodes, (plan.services.get? id).isSome) :
    ∃ more, (execDag host caller body instr plan log).2 = log ++ more ∧
      ((∃ out, (execDag host caller body instr plan log).1 = .ok out) ↔
        anyFails caller log more = false ∨ dag.failurePolicy ≠ .abortAll) := by
  obtain ⟨more, made, ends⟩ := dagLoop_fails caller bodies dag.layers.flatten {} log
  refine ⟨more, ?_⟩
  rw [← ends]
  unfold execDag
  simp only [table]
  rcases ran : dagLoop host caller body dag dag.layers.flatten {} log with ⟨_ | st, after⟩ <;>
    rw [ran] at made
  · exact ⟨made, by simp⟩
  · obtain ⟨out, merged⟩ := mergeDagResults_ok host st named
    exact ⟨made, by simp [merged]⟩

end

namespace VM

def isFanOut : OpCode → Bool
  | .parallel | .emit | .dag => true
  | _ => false

/-- The instruction finds what it needs: table rows that are there, a body it can read, a target inside the plan.
Nothing is said about the answers of services. -/
def equipped (rt : Runtime) (instr : Instruction) (vm : VM) : Bool :=
  match instr.op with
  | .parallel => (List.range instr.a.toNat).all fun offset =>
    (rt.plan.services.rows[instr.b.toNat + offset]?).isSome
  | .emit => (List.range instr.a.toUInt8.toNat).all fun offset =>
    (rt.plan.services.rows[instr.b.toNat + offset]?).isSome
  | .dag => (rt.plan.dagTables[instr.a.toNat]?).any fun dag =>
    dag.nodes.all (fun node =>
      node.parentIds.isEmpty || (rt.host.fromSlice vm.ctx.body).toOption.isSome) &&
    dag.terminalNodes.all fun id => (rt.plan.services.get? id).isSome
  | .collect => (execCollect rt.host vm.ctx.body).toOption.isSome
  | .map => (execMap rt.host vm.ctx.body instr rt.plan).toOption.isSome
  | .gate => (evaluate rt.host vm.ctx.body instr rt.plan).isSome
  | .jmp => instr.a.toNat < rt.plan.instructions.length
  | .buffer => false
  | _ => true

def goesOn (rt : Runtime) (instr : Instruction) : Bool :=
  instr.op = .dag && (rt.plan.dagTables[instr.a.toNat]?).all fun dag => dag.failurePolicy ≠ .abortAll

def newCalls (rt : Runtime) (instr : Instruction) (vm : VM) : List Call :=
  (dispatch rt instr vm.advance).1.calls.drop vm.calls.length

section

variable {rt : Runtime} {instr : Instruction} {vm : VM}

theorem withBody_spec (vm : VM) (exec : Exec Bytes) : (vm.withBody exec).1.calls = (exec vm.calls).2 ∧
      ((vm.withBody exec).2 = .ok () ↔ ∃ body, (exec vm.calls).1 = .ok body) := by
  unfold withBody
  rcases exec vm.calls with ⟨_ | _, calls⟩
  · exact ⟨rfl, by simp⟩
  · exact ⟨rfl, by simp⟩

theorem opDag_spec (rt : Runtime) (instr : Instruction) (vm : VM) :
    (opDag rt instr vm).1.calls = (execDag rt.host rt.caller vm.ctx.body instr rt.plan vm.calls).2 ∧
      ((opDag rt instr vm).2 = .ok () ↔
        ∃ body, (execDag rt.host rt.caller vm.ctx.body instr rt.plan vm.calls).1 = .ok body) := by
  obtain ⟨calls, ends⟩ := withBody_spec vm (execDag rt.host rt.caller vm.ctx.body instr rt.plan)
  rw [← calls, ← ends]
  unfold opDag
  rcases vm.withBody (execDag rt.host rt.caller vm.ctx.body instr rt.plan) with ⟨after, _ | _⟩
  · exact ⟨rfl, by simp⟩
  · exact ⟨rfl, by simp⟩

theorem fanOut_spec (fanOut : isFanOut instr.op = true) (ready : equipped rt instr vm = true) :
    ∃ more, (dispatch rt instr vm.advance).1.calls = vm.calls ++ more ∧ ((dispatch rt instr vm.advance).2 = .ok () ↔
        anyFails rt.caller vm.calls more = false ∨ goesOn rt instr = true) := by
  cases op : instr.op <;> rw [op] at fanOut <;> simp only [isFanOut, Bool.false_eq_true] at fanOut <;>
    simp only [equipped, op] at ready <;> simp only [dispatch, op, goesOn]
  case parallel =>
    have inside : ∀ offset < instr.a.toNat, instr.b.toNat + offset < rt.plan.services.entries.length := by
      simpa [ServiceTable.rows_getElem?] using ready
    obtain ⟨-, more, made, ends, -⟩ := execParallel_spec rt.host rt.scheduler rt.caller vm.ctx.body vm.calls inside
    obtain ⟨calls, ok⟩ := withBody_spec vm.advance
      (execParallel rt.host rt.scheduler rt.caller vm.ctx.body instr rt.plan)
    exact ⟨more, calls.trans made, ok.trans (ends.trans (by simp))⟩
  case emit =>
    have inside : ∀ offset < instr.a.toUInt8.toNat, instr.b.toNat + offset < rt.plan.services.entries.length := by
      simpa [ServiceTable.rows_getElem?] using ready
    obtain ⟨failed, more, made, ends, -⟩ := emitLoop_spec rt.caller vm.ctx.body _ _ vm.calls inside
    refine ⟨more, congrArg Prod.snd made, ?_⟩
    have result : (opEmit rt instr vm.advance).2 = _ := congrArg Prod.fst made
    rw [result, ← ends]
    cases failed <;> simp
  case dag =>
    cases table : rt.plan.dagTables[instr.a.toNat]? with
    | none => simp [table] at ready
    | some dag =>
      simp only [table, Option.any_some, Bool.and_eq_true, List.all_eq_true, Bool.or_eq_true, List.isEmpty_iff] at ready
      have bodies : ∀ node ∈ dag.nodes, node.parentIds = [] ∨ ∃ value, rt.host.fromSlice vm.ctx.body = .ok value := by
        intro node listed
        refine (ready.1 node listed).imp_right fun json => ?_
        cases read : rt.host.fromSlice vm.ctx.body with
        | ok value => exact ⟨value, rfl⟩
        | error e => simp [read, Except.toOption] at json
      obtain ⟨more, made, ends⟩ := execDag_fails rt.caller vm.calls table bodies ready.2
      obtain ⟨calls, ok⟩ := opDag_spec rt instr vm.advance
      exact ⟨more, calls.trans made, ok.trans (ends.trans (by simp))⟩

theorem dispatch_equipped (single : isFanOut instr.op = false) (unguarded : instr.op ≠ .typeGuard)
    (ready : equipped rt instr vm = true) : (dispatch rt instr vm.advance).2 = .ok () := by
  have start : vm.advance.ctx.body = vm.ctx.body := rfl
  cases op : instr.op <;> rw [op] at single <;> simp only [isFanOut, Bool.true_eq_false] at single <;>
    simp only [equipped, op] at ready <;> simp only [dispatch, op]
  case collect =>
    simp only [opCollect, start]
    cases collected : execCollect rt.host vm.ctx.body with
    | ok body => rfl
    | error e => simp [collected, Except.toOption] at ready
  case gate =>
    obtain ⟨holds, decided⟩ := Option.isSome_iff_exists.mp ready
    simp only [opGate, start, decided]
    cases holds <;> rfl
  case map =>
    simp only [opMap, start]
    cases mapped : execMap rt.host vm.ctx.body instr rt.plan with
    | ok body => rfl
    | error e => simp [mapped, Except.toOption] at ready
  case jmp => simp only [opJmp, Nat.not_le.mpr (of_decide_eq_true ready), if_false]
  case typeGuard => exact absurd op unguarded
  case buffer => cases ready

/-- The instruction makes a call that fails, for a single call even with all its attempts. -/
def CallFails (rt : Runtime) (instr : Instruction) (vm : VM) : Prop :=
  if isFanOut instr.op then anyFails rt.caller vm.calls (newCalls rt instr vm) = true
  else (execution rt instr vm).fails = true

/-- If the next instruction makes a call that fails, the flag is set afterwards. -/
def Flags (rt : Runtime) (vm : VM) : Prop :=
  ∀ instr ∈ rt.plan.instructions[vm.ctx.ip]?, CallFails rt instr vm → (dispatch rt instr vm.advance).1.ctx.failed = true

def NextEquipped (rt : Runtime) (vm : VM) : Prop :=
  (rt.plan.instructions[vm.ctx.ip]?).all (equipped rt · vm) = true

/-- If the next instruction is a fan-out, none of its calls fails; or it is a graph that goes on, and the flag is set
already. -/
def FanOutAnswered (rt : Runtime) (vm : VM) : Prop :=
  (rt.plan.instructions[vm.ctx.ip]?).all (fun instr =>
    !isFanOut instr.op || !anyFails rt.caller vm.calls (newCalls rt instr vm) ||
      goesOn rt instr && vm.ctx.failed) = true

instance (rt : Runtime) : DecidablePred (NextEquipped rt) :=
  fun _ => inferInstanceAs (Decidable (_ = _))

instance (rt : Runtime) : DecidablePred (FanOutAnswered rt) :=
  fun _ => inferInstanceAs (Decidable (_ = _))

/-- One step goes as it should if and only if no call of a fan-out fails. -/
theorem step_handles_iff (here : rt.plan.instructions[vm.ctx.ip]? = some instr)
    (unguarded : instr.op ≠ .typeGuard) (ready : NextEquipped rt vm) :
    ((dispatch rt instr vm.advance).2 = .ok () ∧ Flags rt vm) ↔ FanOutAnswered rt vm := by
  have ready : equipped rt instr vm = true := by simpa [NextEquipped, here] using ready
  have flags : Flags rt vm ↔ (CallFails rt instr vm →
      (dispatch rt instr vm.advance).1.ctx.failed = true) := by simp [Flags, here]
  rw [flags, FanOutAnswered, here, Option.all_some]
  cases fanOut : isFanOut instr.op with
  | false =>
    have ends := dispatch_equipped fanOut unguarded ready
    simp only [Bool.not_false, Bool.true_or, iff_true]
    refine ⟨ends, fun fails => ?_⟩
    rw [CallFails, fanOut] at fails
    rw [dispatch_touch, Latch.touch, if_pos (by simpa using fails)]
  | true =>
    obtain ⟨more, made, ends⟩ := fanOut_spec fanOut ready
    rw [CallFails, fanOut, if_pos rfl, newCalls, made, drop_left,
      dispatch_failed (by cases op : instr.op <;> simp_all [isFanOut, isFallible]), ends]
    cases anyFails rt.caller vm.calls more <;> simp

/-- A run handles failed calls: it ends well, and each failed call sets the flag. -/
def Handles (rt : Runtime) (ctx : ExecutionContext) : Prop :=
  (∃ vm, Runs rt ctx (vm, .ok ())) ∧ (runLoop rt).Always (Flags rt) (init ctx)

/-- A run of a plan without type guards whose instructions find what they need handles failed calls if and only if it
ends, and no call of a fan-out fails. -/
theorem handles_iff {ctx : ExecutionContext} (unguarded : ∀ instr ∈ rt.plan.instructions, instr.op ≠ .typeGuard)
    (ready : (runLoop rt).Always (NextEquipped rt) (init ctx)) :
    Handles rt ctx ↔ (∃ result, Runs rt ctx result) ∧ (runLoop rt).Always (FanOutAnswered rt) (init ctx) := by
  have step : ∀ {vm instr}, (runLoop rt).Reaches (init ctx) vm → rt.plan.instructions[vm.ctx.ip]? = some instr →
      (((dispatch rt instr vm.advance).2 = .ok () ∧ Flags rt vm) ↔ FanOutAnswered rt vm) :=
    fun path here => step_handles_iff here (unguarded _ (mem_of_getElem? here)) (ready _ path)
  constructor
  · rintro ⟨⟨last, ran⟩, flags⟩
    refine ⟨⟨_, ran⟩, ?_⟩
    intro vm path
    cases here : rt.plan.instructions[vm.ctx.ip]? with
    | none => simp [FanOutAnswered, here]
    | some instr =>
    refine (step path here).mp ⟨?_, flags vm path⟩
    -- a state of a run that ends well is left by a dispatch that ends well
    rcases dispatched : dispatch rt instr vm.advance with ⟨after, _ | _⟩
    · rename_i e
      have halted : (runLoop rt).next vm = .inr (after, .error e) :=
        runLoop_halt.mpr (.inr ⟨instr, after, e, here, dispatched, rfl⟩)
      have same := Machine.Halts.unique (Machine.Halts.after path ran) ⟨vm, .refl, halted⟩
      cases same
    · rfl
  · rintro ⟨⟨result, vm, path, halted⟩, answered⟩
    refine ⟨?_, ?_⟩
    · rcases runLoop_halt.mp halted with ⟨-, rfl⟩ | ⟨instr, after, e, here, dispatched, -⟩
      · exact ⟨vm, vm, path, halted⟩
      · have ends := ((step path here).mpr (answered vm path)).1
        rw [dispatched] at ends
        cases ends
    · intro vm path instr here
      exact ((step path here).mpr (answered vm path)).2 instr here

end

/-- What runs a plan of some nodes on bodies that are objects, with one service down. -/
def objectRuntime (down : UInt16) (nodes : List ASTNode) : Runtime :=
  ⟨.blank, .inOrder, Compiler.ascii.planOf nodes "r", allBut down⟩

/-- A parallel whose calls are answered, and a single call that fails. -/
theorem handles_single_failure : Compiler.ascii.compile [.parallel ["a", "b"], .next "c", .fallback "d"] "r" =
        .ok (Compiler.ascii.planOf [.parallel ["a", "b"], .next "c", .fallback "d"] "r") ∧
      Handles (objectRuntime 2 [.parallel ["a", "b"], .next "c", .fallback "d"]) (.fromBody braces) := by
  refine ⟨rfl, (handles_iff (by decide) ?_).mpr ⟨⟨_, Machine.exists_run_iff.mp ⟨10, rfl⟩⟩, ?_⟩⟩
  · exact Machine.always_of_check 10 (by decide)
  · exact Machine.always_of_check 10 (by decide)

/-- If one call of a parallel or of an emit fails, the run ends with the error and the fallback is not reached. -/
theorem fanOut_ends_run : (Host.blank.fromSlice braces = .ok (.obj []) ∧
      Runs (objectRuntime 1 [.parallel ["a", "b"], .fallback "c"]) (.fromBody braces)
        (⟨⟨braces, false, [], 0, 1⟩, [⟨0, braces, 0⟩, ⟨1, braces, 0⟩]⟩, .error (.err "down")) ∧
      ¬ Handles (objectRuntime 1 [.parallel ["a", "b"], .fallback "c"]) (.fromBody braces)) ∧
    (Runs (objectRuntime 0 [.emit ["a", "b"], .fallback "c"]) (.fromBody braces)
        (⟨⟨braces, false, [], 0, 1⟩, [⟨0, braces, 0⟩]⟩, .error (.err "down")) ∧
      ¬ Handles (objectRuntime 0 [.emit ["a", "b"], .fallback "c"]) (.fromBody braces)) := by
  have unhandled {rt vm vm' e} (ended : Runs rt vm (vm', .error e)) : ¬ Handles rt vm := by
    rintro ⟨⟨vm, ok⟩, -⟩
    cases ended.unique ok
  exact ⟨⟨rfl, Machine.exists_run_iff.mp ⟨10, rfl⟩, unhandled (Machine.exists_run_iff.mp ⟨10, rfl⟩)⟩,
    Machine.exists_run_iff.mp ⟨10, rfl⟩, unhandled (Machine.exists_run_iff.mp ⟨10, rfl⟩)⟩

end VM

end FlowRulZ
