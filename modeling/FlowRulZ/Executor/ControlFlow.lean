import FlowRulZ.Dsl.Jumps
import FlowRulZ.Executor.Segments

/-! # The machine follows the flow of control

On a compiled plan whose jumps are resolved, `VM::run` does what the nodes say: it is
followed move by move by the flow of control over the nodes, where a gate is evaluated
and a node is executed as the machine does it.  So what is shown about the flow of control
of a pipeline holds for the code it is compiled to.
-/

open List

namespace FlowRulZ

namespace VM

open FlowRulZ.Flow

def flowEnv (rt : Runtime) : Flow.Env Located VM Outcome where
  control item := item.node.control
  gate vm item :=
    match evaluate rt.host vm.ctx.body item.instr rt.plan with
    | none => .error (vm.setIp (item.place + 1), .error .panic)
    | some passes => .ok (passes, vm)
  exec vm item :=
    match dispatch rt item.instr (vm.setIp (item.place + 1)) with
    | (vm, .ok ()) => .ok vm
    | (vm, .error e) => .error (vm, .error e)

def flowResult (rt : Runtime) (result : Except Outcome VM × List Located) :
    Outcome × List Nat :=
  match result.1 with
  | .ok vm => ((vm.setIp rt.plan.instructions.length, .ok ()), result.2.map (·.place))
  | .error e => (e, result.2.map (·.place))

/-- Opcodes that direct the flow of control, or are arguments. -/
def directs : OpCode → Bool
  | .gate | .label | .jmp | .drop | .svcArg | .jumpOffset => true
  | _ => false

def executed (rt : Runtime) (vm : VM) : List Nat :=
  match rt.plan.instructions[vm.ctx.ip]? with
  | none => []
  | some instr => if directs instr.op then [] else [vm.ctx.ip]

end VM

section

variable {plan : ExecutionPlan}

theorem located_append (left right : List ASTNode) : ∀ start, located plan start (left ++ right) =
      located plan start left ++ located plan (start + codeLen left) right := by
  induction left with
  | nil => intro start; rfl
  | cons node left ih =>
    intro start
    simp only [cons_append, located, codeLen_cons, ih, ← Nat.add_assoc]
    split <;> rfl

/-- A located node is one of the nodes, at its place in the code. -/
theorem located_split (nodes : List ASTNode) : ∀ start done item rest, located plan start nodes = done ++ item :: rest →
      ∃ pre post, nodes = pre ++ item.node :: post ∧ item.place = start + codeLen pre := by
  induction nodes with
  | nil => intro start done item rest split; simp [located] at split
  | cons node nodes ih =>
    intro start done item rest split
    -- the item is this node, or it comes later
    have later : ∀ done', located plan (start + node.ops.length) nodes = done' ++ item :: rest →
        ∃ pre post, node :: nodes = pre ++ item.node :: post ∧ item.place = start + codeLen pre := by
      intro done' found
      obtain ⟨pre, post, rfl, place⟩ := ih _ done' item rest found
      refine ⟨node :: pre, post, rfl, ?_⟩
      rw [codeLen_cons]
      omega
    simp only [located] at split
    split at split
    · cases done with
      | nil =>
        obtain ⟨rfl, -⟩ := List.cons.inj split
        exact ⟨[], nodes, rfl, rfl⟩
      | cons first done => exact later done (List.cons.inj split).2
    · exact later done split

theorem compile_label_unique {self : Compiler} {ruleId target : String} {pre post : List ASTNode}
    (h : self.compile (pre ++ .label target :: post) ruleId = .ok plan) : .label target ∉ pre := by
  intro inside
  obtain ⟨left, right, rfl⟩ := append_of_mem inside
  obtain ⟨schema, last, loop, -⟩ := Compiler.compile_loop h
  have later := Compiler.compileNodes_label_index loop
  rw [append_assoc] at loop
  have earlier := Compiler.compileNodes_label_index loop
  rw [later, Option.some.injEq] at earlier
  simp only [codeLen_append, codeLen_cons, ASTNode.ops, length_singleton] at earlier
  omega

theorem Chained.right {left right : List Located} (chained : Chained plan (left ++ right)) :
    Chained plan right := by
  induction left with
  | nil => exact chained
  | cons item left ih =>
    cases chained with
    | cons here ops filled next chained => exact ih chained

theorem seek_located {pre post : List ASTNode} {target : String} (first : .label target ∉ pre)
    (here : plan.instructions[codeLen pre]? = some .label) :
    Flow.seek (fun item : Located => item.node.control) target (located plan 0 (pre ++ .label target :: post)) =
      located plan (codeLen pre) (.label target :: post) := by
  have head : located plan (codeLen pre) (.label target :: post) =
      ⟨.label target, codeLen pre, .label⟩ :: located plan (codeLen pre + 1) post := by
    simp only [located, here]
    rfl
  have skipped : ∀ item ∈ located plan 0 pre, item.node.control ≠ .label target := by
    intro item inside label
    rw [ASTNode.control_eq_label] at label
    exact first (label ▸ located_node pre 0 item inside)
  have found : Flow.fromLabel (fun item : Located => item.node.control) target
      (located plan 0 (pre ++ .label target :: post)) =
      ⟨.label target, codeLen pre, .label⟩ :: located plan (codeLen pre + 1) post := by
    rw [located_append, Nat.zero_add, Flow.fromLabel_append skipped, head]
    simp [Flow.fromLabel, ASTNode.control]
  rw [Flow.seek_of_found found, head]

end

namespace VM

open FlowRulZ.Flow

section

variable {rt : Runtime} {item : Located} {rest program : List Located} {vm : VM}

theorem ops_directs {node : ASTNode} {op : OpCode} {args : List OpCode} (ops : node.ops = op :: args) :
    node.control ≠ .idle ∧ (directs op = false ↔ node.control = .act) := by
  cases node <;> cases ops <;> simp [ASTNode.control, directs]

theorem quiet_executed : Quiet rt (executed rt) := by
  intro vm instr here arg
  have directing : directs instr.op = true := by
    cases op : instr.op <;> rw [op] at arg <;> first | rfl | cases arg
  simp [executed, here, directing]

theorem executed_item (chained : Chained rt.plan (item :: rest)) :
    executed rt (vm.setIp item.place) = if item.node.control = .act then [item.place] else [] := by
  cases chained with
  | cons here ops filled next chained =>
    have acts := (ops_directs ops).2
    simp only [executed]
    rw [show (vm.setIp item.place).ctx.ip = item.place from rfl, here]
    by_cases act : item.node.control = .act
    · simp [act, acts.mpr act]
    · simp [act, mt acts.mp act]

theorem executed_end : executed rt (vm.setIp rt.plan.instructions.length) = [] := by
  simp only [executed, behind_end]

/-- Where the machine is when the flow of control is before the given nodes. -/
def pointer (plan : ExecutionPlan) (skipping : Bool) (items : List Located) : Nat :=
  if skipping then landing plan items else entry plan items

theorem pointer_stop (skipping : Bool) (stop : item.instr.op.isStop = true) :
    pointer rt.plan skipping (item :: rest) = item.place := by
  cases skipping <;> simp [pointer, entry, landing, stop]

/-- The flow of control and the machine at the same point of a run; or the flow has ended at a drop and the machine is
behind the code. -/
def Follows (rt : Runtime) (program : List Located) (s : State Located VM) (t : VM × List Nat) : Prop :=
  s.rest <:+ program ∧ (t = (s.env.setIp (pointer rt.plan s.skipping s.rest), s.out.map (·.place)) ∨
      t = (s.env.setIp rt.plan.instructions.length, s.out.map (·.place)) ∧
        (machine (flowEnv rt) program).next s = .inr (.ok s.env, s.out))

def JumpsAgree (rt : Runtime) (program : List Located) : Prop :=
  ∀ item ∈ program, ∀ target, item.node.control = .jmp target → item.instr.a.toNat < rt.plan.instructions.length ∧
      entry rt.plan (seek (flowEnv rt).control target program) = item.instr.a.toNat

theorem Chained.kind (chained : Chained rt.plan (item :: rest)) : rt.plan.instructions[item.place]? = some item.instr ∧
      (item.instr.op = .gate ↔ item.node.control = .gate) ∧
      (item.instr.op = .drop ↔ item.node.control = .drop) ∧
      (item.instr.op = .label ↔ ∃ name, item.node.control = .label name) ∧
      (item.instr.op = .jmp ↔ ∃ target, item.node.control = .jmp target) ∧
      item.node.control ≠ .idle := by
  cases chained with
  | cons here ops filled next chained =>
    obtain ⟨-, gate, drop, label, jmp⟩ := ops_control ops
    exact ⟨here, gate, drop, label, jmp, (ops_directs ops).1⟩

theorem isStop_iff (chained : Chained rt.plan (item :: rest)) : item.instr.op.isStop = true ↔
      item.node.control = .gate ∨ ∃ name, item.node.control = .label name := by
  obtain ⟨-, gate, -, label, -⟩ := Chained.kind chained
  rw [← gate, ← label]
  exact OpCode.isStop_iff

/-- Each move of the flow of control is answered by the machine, and so is its end. -/
theorem follows_next {s : State Located VM} {t : VM × List Nat} (chained : Chained rt.plan program)
    (agree : JumpsAgree rt program) (follows : Follows rt program s t) :
    ((runLoop rt).recording (executed rt)).Answers (Follows rt program) (fun s => s.rest.length) s t
      (((machine (flowEnv rt) program).next s).map id (flowResult rt)) := by
  obtain ⟨inside, rfl | ⟨rfl, ended⟩⟩ := follows
  case inr =>
    rw [ended]
    exact ⟨_, .refl, end_halted executed_end, inside, .inr ⟨rfl, ended⟩⟩
  obtain ⟨items, skipping, vm, out⟩ := s
  cases items with
  | nil =>
    have place : pointer rt.plan skipping [] = rt.plan.instructions.length := by
      cases skipping <;> rfl
    refine ⟨_, .refl, ?_, inside, .inl rfl⟩
    rw [place]
    exact end_halted executed_end
  | cons item rest =>
    have whole : Chained rt.plan (item :: rest) := by
      obtain ⟨done, rfl⟩ := inside
      exact chained.right
    have later : rest <:+ program := (suffix_cons item rest).trans inside
    obtain ⟨here, isGate, isDrop, isLabel, isJmp, notIdle⟩ := Chained.kind whole
    have stops := isStop_iff whole
    have noted : executed rt (vm.setIp item.place) = _ := executed_item whole
    have unnoted (notAct : item.node.control ≠ .act) :
        out.map (·.place) ++ executed rt (vm.setIp item.place) = out.map (·.place) := by
      rw [noted, if_neg notAct, append_nil]
    -- while a false gate skips, only gates and labels are looked at
    by_cases skipped : skipping = true ∧ item.instr.op.isStop = false
    · obtain ⟨rfl, pass⟩ := skipped
      have plain := mt stops.mpr (Bool.eq_false_iff.mp pass)
      push Not at plain
      rw [next_skip rfl rfl plain.1 plain.2]
      exact .inr ⟨⟨later, .inl (by simp [pointer, landing, pass])⟩, Nat.lt_succ_self _⟩
    have awake (pass : ¬ item.instr.op.isStop = true) : skipping = false := by
      simpa [pass] using skipped
    rw [stops] at awake
    cases kind : item.node.control with
    | idle => exact absurd kind notIdle
    | label name =>
      rw [next_label rfl kind, pointer_stop skipping (stops.mpr (.inr ⟨name, kind⟩))]
      have op : item.instr.op = .label := isLabel.mpr ⟨name, kind⟩
      have passed : dispatch rt item.instr (vm.setIp (item.place + 1)) = (vm.setIp (item.place + 1), .ok ()) := by
        simp only [dispatch, op]
      have path := act_reach (out.map (·.place)) quiet_executed whole (by simp [op])
        (by simp [op]) (by simp [op]) passed
      rw [unnoted (by simp [kind])] at path
      exact .inl ⟨_, path, later, .inl rfl⟩
    | gate =>
      rw [pointer_stop skipping (stops.mpr (.inl kind))]
      cases tells : evaluate rt.host vm.ctx.body item.instr rt.plan with
      | none =>
        have fails : (flowEnv rt).gate vm item = .error (vm.setIp (item.place + 1), .error .panic) := by
          simp only [flowEnv, tells]
        have failed : dispatch rt item.instr (vm.setIp (item.place + 1)) = (_, .error .panic) :=
          dispatch_gate (isGate.mpr kind) tells
        rw [next_gate_error rfl kind fails]
        refine ⟨_, .refl, (halted_dispatch here failed).trans ?_, inside, .inl ?_⟩
        · rw [unnoted (by simp [kind])]
          rfl
        · rw [pointer_stop skipping (stops.mpr (.inl kind))]
      | some passes =>
        have verdict : (flowEnv rt).gate vm item = .ok (passes, vm) := by
          simp only [flowEnv, tells]
        have path := gate_reach (out.map (·.place)) quiet_executed whole kind tells
        rw [unnoted (by simp [kind])] at path
        rw [next_gate rfl kind verdict]
        refine .inl ⟨_, path, later, .inl ?_⟩
        cases passes <;> rfl
    | act =>
      obtain rfl := awake (by simp [kind])
      rcases done : dispatch rt item.instr (vm.setIp (item.place + 1)) with ⟨vm', e | _⟩
      · have fails : (flowEnv rt).exec vm item = .error (vm', .error e) := by
          simp only [flowEnv, done]
        rw [next_act_error rfl kind rfl fails]
        refine ⟨_, .refl, (halted_dispatch here done).trans ?_, inside, .inl rfl⟩
        rw [noted, kind]
        simp [flowResult]
      · have ran : (flowEnv rt).exec vm item = .ok vm' := by simp only [flowEnv, done]
        have path := act_reach (out.map (·.place)) quiet_executed whole
          (mt isGate.mp (by simp [kind])) (mt isDrop.mp (by simp [kind]))
          (mt isJmp.mp (by simp [kind])) done
        rw [noted, kind] at path
        rw [next_act rfl kind rfl ran]
        exact .inl ⟨_, path, later, .inl (by simp [pointer])⟩
    | jmp target =>
      obtain rfl := awake (by simp [kind])
      obtain ⟨small, place⟩ := agree item (inside.subset mem_cons_self) target kind
      have op : item.instr.op = .jmp := isJmp.mpr ⟨target, kind⟩
      have jumped : dispatch rt item.instr (vm.setIp (item.place + 1)) = (vm.setIp item.instr.a.toNat, .ok ()) := by
        simp only [dispatch, op, opJmp]
        rw [if_neg (by omega)]
        rfl
      have moved : ((runLoop rt).recording (executed rt)).Step (vm.setIp item.place, out.map (·.place))
          (vm.setIp item.instr.a.toNat, out.map (·.place) ++ executed rt (vm.setIp item.place)) :=
        step_dispatch here jumped
      rw [unnoted (by simp [kind]), ← place] at moved
      rw [next_jmp rfl kind rfl]
      exact .inl ⟨_, .single moved, seek_suffix _ program, .inl rfl⟩
    | drop =>
      obtain rfl := awake (by simp [kind])
      have ended : (machine (flowEnv rt) program).next ⟨item :: rest, false, vm, out⟩ = _ :=
        next_drop rfl kind rfl
      have moved := drop_step (executed rt) vm (out.map (·.place)) whole kind
      rw [unnoted (by simp [kind])] at moved
      rw [ended]
      exact ⟨_, .single moved, end_halted executed_end, inside, .inr ⟨rfl, ended⟩⟩

theorem runLoop_follows (chained : Chained rt.plan program) (agree : JumpsAgree rt program) :
    Machine.Simulates ((machine (flowEnv rt) program).mapResult (flowResult rt))
      ((runLoop rt).recording (executed rt)) (Follows rt program) (fun s => s.rest.length) :=
  .of_next fun _ _ follows => follows_next chained agree follows

theorem jumpsAgree_of_resolved {self : Compiler} {nodes : List ASTNode} {ruleId : String}
    (h : self.compile nodes ruleId = .ok rt.plan) (resolved : JumpsResolved nodes rt.plan) :
    JumpsAgree rt (located rt.plan 0 nodes) := by
  intro item inside target kind
  obtain ⟨done, rest, split⟩ := append_of_mem inside
  obtain ⟨pre, post, jumps, place⟩ := located_split nodes 0 done item rest split
  rw [ASTNode.control_eq_jmp.mp kind] at jumps
  obtain ⟨pre', post', labelled, label, instr, found, -, operand⟩ := resolved pre target post jumps
  obtain ⟨chained, -⟩ := located_chained nodes 0 (Nat.zero_le _) (Compiler.compile_ops h)
  rw [split] at chained
  obtain ⟨here, -⟩ := Chained.kind chained.right
  rw [place, Nat.zero_add] at here
  obtain rfl : item.instr = instr := Option.some.inj (here.symm.trans found)
  rw [operand]
  refine ⟨(List.getElem?_eq_some_iff.mp label).1, ?_⟩
  have first : .label target ∉ pre' := compile_label_unique (labelled ▸ h)
  have sought : seek (flowEnv rt).control target (located rt.plan 0 nodes) =
      located rt.plan (codeLen pre') (.label target :: post') := by
    rw [labelled]
    exact seek_located first label
  rw [sought]
  simp only [located, label]
  rfl

variable {self : Compiler} {nodes : List ASTNode} {ruleId : String}

/-- A compiled plan has all the nodes. If its jumps are resolved, the run executes the nodes that the flow of control
executes, and ends alike. -/
theorem compile_follows_flow (h : self.compile nodes ruleId = .ok rt.plan)
    (resolved : JumpsResolved nodes rt.plan) (ctx : ExecutionContext) :
    Lists nodes (located rt.plan 0 nodes) ∧
    (∀ places, (machine (flowEnv rt) (located rt.plan 0 nodes)).Emits
        (fun s => s.out.map (·.place)) (start (located rt.plan 0 nodes) (init ctx)) places ↔
      ((runLoop rt).recording (executed rt)).Emits Prod.snd (init ctx, []) places) ∧
    ∀ result, ((runLoop rt).recording (executed rt)).Halts (init ctx, []) result ↔
      ∃ flow, (machine (flowEnv rt) (located rt.plan 0 nodes)).Halts
        (start (located rt.plan 0 nodes) (init ctx)) flow ∧ flowResult rt flow = result := by
  obtain ⟨chained, first, lists⟩ := located_chained nodes 0 (Nat.zero_le _) (Compiler.compile_ops h)
  have sim := runLoop_follows chained (jumpsAgree_of_resolved h resolved)
  have related : Follows rt (located rt.plan 0 nodes) (start (located rt.plan 0 nodes) (init ctx)) (init ctx, []) := by
    have place : pointer rt.plan false (located rt.plan 0 nodes) = 0 := first
    refine ⟨suffix_rfl, .inl ?_⟩
    simp only [start, place]
    rfl
  refine ⟨lists, ?_, ?_⟩
  · intro places
    have same : ∀ s t, Follows rt (located rt.plan 0 nodes) s t → s.out.map (·.place) = t.2 := by
      rintro s t ⟨-, rfl | ⟨rfl, -⟩⟩ <;> rfl
    exact Machine.mapResult_emits.symm.trans (sim.emits_iff same (fun _ _ => Machine.recording_grows) related)
  · intro result
    rw [← sim.halts_iff related]
    exact Machine.mapResult_halts

end

/-- A loop without an end. -/
theorem compile_follows_flow_loop : let nodes := [ASTNode.next "a", .label "l", .jmp "l"]
    let rt : Runtime := ⟨.mute, .inOrder, Compiler.ascii.planOf nodes "r", fun _ _ => .ok [7]⟩
    ∀ result, ((runLoop rt).recording (executed rt)).Halts (init ⟨[], false, [], 0, 0⟩, []) result ↔
      ∃ flow, (machine (flowEnv rt) (located rt.plan 0 nodes)).Halts
        (start (located rt.plan 0 nodes) (init ⟨[], false, [], 0, 0⟩)) flow ∧ flowResult rt flow = result := by
  intro nodes rt
  refine (compile_follows_flow (show Compiler.ascii.compile nodes "r" = .ok rt.plan from rfl) ?_ _).2.2
  intro pre target post split
  rcases pre with _ | ⟨_, _ | ⟨_, _ | ⟨_, pre⟩⟩⟩ <;> simp [nodes] at split
  obtain ⟨rfl, rfl, rfl, -⟩ := split
  exact ⟨[.next "a"], [.jmp "l"], rfl, rfl, _, rfl, rfl, rfl⟩

end VM

end FlowRulZ
