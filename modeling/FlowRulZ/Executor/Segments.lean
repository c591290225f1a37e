import FlowRulZ.Dsl.Flow
import FlowRulZ.Dsl.Layout
import FlowRulZ.Executor.VM

/-! # Gated segments of a compiled pipeline

The code of a node is one instruction that does the work, and arguments that do nothing.
On a pipeline without labels and jumps the machine therefore walks the nodes from left to
right: it evaluates every gate and executes the other nodes while the last gate was true.
-/

namespace FlowRulZ

open List

def OpCode.isArg : OpCode → Bool
  | .svcArg | .jumpOffset => true
  | _ => false

structure Located where
  node : ASTNode
  place : Nat
  instr : Instruction

/-- The nodes that are compiled to any instruction, for code that begins at `start`. -/
def located (plan : ExecutionPlan) : Nat → List ASTNode → List Located
  | _, [] => []
  | start, node :: rest =>
    match node.ops, plan.instructions[start]? with
    | _ :: _, some instr => ⟨node, start, instr⟩ :: located plan (start + node.ops.length) rest
    | _, _ => located plan (start + node.ops.length) rest

/-- The items are the nodes that are compiled to any instruction, each with the code of its own first one. -/
def Lists (nodes : List ASTNode) (items : List Located) : Prop :=
  items.map (fun item => (item.node, item.instr.op)) =
    nodes.filterMap fun node => node.ops.head?.map fun op => (node, op)

def entry (plan : ExecutionPlan) : List Located → Nat
  | [] => plan.instructions.length
  | item :: _ => item.place

def landing (plan : ExecutionPlan) : List Located → Nat
  | [] => plan.instructions.length
  | item :: rest => if item.instr.op.isStop then item.place else landing plan rest

/-- The code of the nodes is complete and in order. -/
inductive Chained (plan : ExecutionPlan) : List Located → Prop
  | nil : Chained plan []
  | cons {item : Located} {rest : List Located} {args : List OpCode}
      (here : plan.instructions[item.place]? = some item.instr)
      (ops : item.node.ops = item.instr.op :: args)
      (filled : ∀ k, item.place < k → k < entry plan rest →
        ∃ arg, plan.instructions[k]? = some arg ∧ arg.op.isArg = true)
      (next : entry plan rest = item.place + item.node.ops.length)
      (chained : Chained plan rest) : Chained plan (item :: rest)

theorem ops_args {node : ASTNode} {op : OpCode} {args : List OpCode} (ops : node.ops = op :: args) :
    ∀ arg ∈ args, arg.isArg = true := by
  cases node <;> cases ops <;> simp [OpCode.isArg]

theorem ops_control {node : ASTNode} {op : OpCode} {args : List OpCode} (ops : node.ops = op :: args) :
    op.isArg = false ∧ (op = .gate ↔ node.control = .gate) ∧ (op = .drop ↔ node.control = .drop) ∧
      (op = .label ↔ ∃ name, node.control = .label name) ∧
      (op = .jmp ↔ ∃ target, node.control = .jmp target) := by
  cases node <;> cases ops <;> simp [OpCode.isArg, ASTNode.control]

section

variable {plan : ExecutionPlan}

theorem located_node (nodes : List ASTNode) : ∀ start, ∀ item ∈ located plan start nodes, item.node ∈ nodes := by
  induction nodes with
  | nil => intro start item inside; cases inside
  | cons node nodes ih =>
    intro start item inside
    simp only [located] at inside
    split at inside
    · rcases mem_cons.mp inside with rfl | later
      · exact mem_cons_self
      · exact mem_cons_of_mem _ (ih _ item later)
    · exact mem_cons_of_mem _ (ih _ item inside)

theorem located_chained (nodes : List ASTNode) : ∀ start, start ≤ plan.instructions.length →
      (plan.instructions.map (·.op)).drop start = nodes.flatMap ASTNode.ops →
      Chained plan (located plan start nodes) ∧ entry plan (located plan start nodes) = start ∧
        Lists nodes (located plan start nodes) := by
  induction nodes with
  | nil =>
    intro start inside code
    simp only [flatMap_nil, drop_eq_nil_iff, length_map] at code
    exact ⟨.nil, Nat.le_antisymm code inside, rfl⟩
  | cons node rest ih =>
    intro start inside code
    rw [flatMap_cons] at code
    have later : (plan.instructions.map (·.op)).drop (start + node.ops.length) = rest.flatMap ASTNode.ops := by
      rw [← drop_drop, code, drop_left]
    have length := congrArg List.length code
    simp only [length_drop, length_map, length_append] at length
    obtain ⟨chained, next, lists⟩ := ih (start + node.ops.length) (by omega) later
    cases ops : node.ops with
    | nil =>
      simp only [located, ops] at chained next lists ⊢
      refine ⟨chained, next, ?_⟩
      rwa [Lists, filterMap_cons_none (by simp [ops])]
    | cons op args =>
      have opAt : ∀ j, (plan.instructions[start + j]?).map (·.op) = (node.ops ++ rest.flatMap ASTNode.ops)[j]? := by
        intro j
        rw [← getElem?_map, ← getElem?_drop, code]
      obtain ⟨instr, here, sameOp⟩ : ∃ instr, plan.instructions[start]? = some instr ∧ instr.op = op := by
        have first := opAt 0
        rw [ops] at first
        exact Option.map_eq_some_iff.mp first
      simp only [located, ops, here]
      rw [ops] at chained next lists
      have shape : node.ops = instr.op :: args := sameOp ▸ ops
      have listed : Lists (node :: rest) (⟨node, start, instr⟩ :: located plan (start + (op :: args).length) rest) := by
        simp only [Lists, map_cons, filterMap_cons, shape, head?_cons, Option.map_some]
        rw [lists]
      refine ⟨.cons here shape ?_ (by rw [next, ← ops]) chained, rfl, listed⟩
      intro k (after : start < k) before
      rw [next, length_cons] at before
      obtain ⟨j, rfl⟩ : ∃ j, k = start + (j + 1) := ⟨k - start - 1, by omega⟩
      have inArgs : j < args.length := by omega
      have found := opAt (j + 1)
      rw [ops, cons_append, getElem?_cons_succ, getElem?_append_left inArgs, getElem?_eq_getElem inArgs] at found
      obtain ⟨arg, there, same⟩ := Option.map_eq_some_iff.mp found
      exact ⟨arg, there, same ▸ ops_args ops _ (getElem_mem inArgs)⟩

theorem skip_over {k m : Nat} (before : k ≤ m)
    (passed : ∀ i, k ≤ i → i < m → ∃ instr, plan.instructions[i]? = some instr ∧ instr.op.isStop = false) :
    k + ((plan.instructions.drop k).takeWhile fun instr => !instr.op.isStop).length =
      m + ((plan.instructions.drop m).takeWhile fun instr => !instr.op.isStop).length := by
  induction before using Nat.decreasingInduction with
  | self => rfl
  | of_succ k less ih =>
    obtain ⟨instr, here, passes⟩ := passed k le_rfl less
    obtain ⟨inside, rfl⟩ := List.getElem?_eq_some_iff.mp here
    rw [← ih fun i low high => passed i (by omega) high, drop_eq_getElem_cons inside,
      takeWhile_cons_of_pos (by simp [passes]), length_cons]
    omega

theorem isStop_of_isArg {op : OpCode} (arg : op.isArg = true) : op.isStop = false := by
  cases op <;> first | rfl | cases arg

theorem skip_landing {items : List Located} (chained : Chained plan items) :
    entry plan items + ((plan.instructions.drop (entry plan items)).takeWhile
      fun instr => !instr.op.isStop).length = landing plan items := by
  induction chained with
  | nil => simp [entry, landing]
  | @cons item rest args here ops filled next chained ih =>
    obtain ⟨inside, same⟩ := List.getElem?_eq_some_iff.mp here
    simp only [landing, entry]
    split
    · rename_i stop
      rw [drop_eq_getElem_cons inside, same, takeWhile_cons_of_neg (by simp [stop])]
      rfl
    · rename_i passes
      rw [← ih]
      apply skip_over
      · omega
      · intro i low high
        rcases Nat.eq_or_lt_of_le low with rfl | after
        · exact ⟨item.instr, here, by simpa using passes⟩
        · obtain ⟨arg, there, isArg⟩ := filled i after high
          exact ⟨arg, there, isStop_of_isArg isArg⟩

theorem skipCount_landing {item : Located} {rest : List Located} (chained : Chained plan (item :: rest))
    (gate : item.node.control = .gate) :
    item.place + 1 + skipCount plan (item.place + 1) = landing plan rest := by
  cases chained with
  | cons here ops filled next chained =>
    have two : item.node.ops.length = 2 := by
      cases node : item.node <;> rw [node] at gate <;> first | rfl | cases gate
    rw [← skip_landing chained, next, two, skipCount, Nat.add_assoc item.place 1 1]
    omega

end

namespace VM

section

variable {rt : Runtime} {instr : Instruction} {vm : VM}

theorem dispatch_arg (arg : instr.op.isArg = true) : dispatch rt instr vm = (vm, .ok ()) := by
  cases op : instr.op <;> rw [op] at arg <;> simp only [dispatch, op] <;> cases arg

theorem answered_setIp (vm : VM) (answer : Except String Bytes) (ip : Nat) :
    (vm.setIp ip).answered answer = (vm.answered answer).setIp ip := by
  cases answer <;> rfl

theorem withBody_setIp (vm : VM) (exec : Exec Bytes) (ip : Nat) :
    (vm.setIp ip).withBody exec = ((vm.withBody exec).1.setIp ip, (vm.withBody exec).2) := by
  simp only [withBody]
  rw [show (vm.setIp ip).calls = vm.calls from rfl]
  split <;> rfl

theorem opNext_setIp (rt : Runtime) (instr : Instruction) (isAsync : Bool) (vm : VM) (ip : Nat) :
    opNext rt instr isAsync (vm.setIp ip) = (opNext rt instr isAsync vm).setIp ip := by
  exact answered_setIp (vm.setCalls (execNext rt.caller vm.ctx.body instr rt.plan isAsync vm.calls).2) _ ip

theorem opSvcCall_setIp (rt : Runtime) (instr : Instruction) (vm : VM) (ip : Nat) :
    opSvcCall rt instr (vm.setIp ip) = (opSvcCall rt instr vm).setIp ip := by
  exact answered_setIp (vm.setCalls (vm.calls ++ [(⟨instr.a, vm.ctx.body, instr.timeoutMs⟩ : Call)])) _ ip

theorem dispatch_setIp (rt : Runtime) (notGate : instr.op ≠ .gate) (notDrop : instr.op ≠ .drop)
    (notJmp : instr.op ≠ .jmp) (vm : VM) (ip : Nat) :
    dispatch rt instr (vm.setIp ip) = ((dispatch rt instr vm).1.setIp ip, (dispatch rt instr vm).2) := by
  have body : (vm.setIp ip).ctx.body = vm.ctx.body := rfl
  cases op : instr.op with
  | gate => exact absurd op notGate
  | drop => exact absurd op notDrop
  | jmp => exact absurd op notJmp
  | next | async =>
    simp only [dispatch, op]
    rw [opNext_setIp]
  | svcCall =>
    simp only [dispatch, op]
    rw [opSvcCall_setIp]
  | fallback =>
    simp only [dispatch, op, opFallback]
    rw [show (vm.setIp ip).ctx.failed = vm.ctx.failed from rfl]
    split
    · exact congrArg (fun vm : VM => (vm, Except.ok ()))
        (opNext_setIp rt instr false { vm with ctx := { vm.ctx with failed := false } } ip)
    · rfl
  | parallel =>
    simp only [dispatch, op]
    exact withBody_setIp vm _ ip
  | collect =>
    simp only [dispatch, op, opCollect, body]
    cases execCollect rt.host vm.ctx.body <;> rfl
  | emit =>
    simp only [dispatch, op]
    rfl
  | map =>
    simp only [dispatch, op, opMap, body]
    cases execMap rt.host vm.ctx.body instr rt.plan <;> rfl
  | dag =>
    simp only [dispatch, op, opDag, body, withBody_setIp]
    rcases vm.withBody (execDag rt.host rt.caller vm.ctx.body instr rt.plan) with ⟨vm', _ | _⟩ <;> rfl
  | typeGuard =>
    simp only [dispatch, op, opTypeGuard, body]
    cases rt.plan.schema with
    | none => simp only; split <;> rfl
    | some schema =>
      cases rt.host.fromSlice vm.ctx.body with
      | error e => rfl
      | ok value => cases valid : schema.isValid rt.host value <;> simp only [valid]
  | key | label | svcArg | jumpOffset | buffer | chunk | delay => simp only [dispatch, op]

theorem dispatch_ip (notGate : instr.op ≠ .gate) (notDrop : instr.op ≠ .drop)
    (notJmp : instr.op ≠ .jmp) : (dispatch rt instr vm).1.ctx.ip = vm.ctx.ip := by
  have same : dispatch rt instr vm = _ := dispatch_setIp rt notGate notDrop notJmp vm vm.ctx.ip
  rw [same]
  rfl

end

/-! ## Running the code of a node

The run may be observed by any notes that pass over arguments. -/

section

variable {rt : Runtime} {α : Type*} {note : VM → List α} {item : Located} {rest : List Located}
  {vm vm' : VM} {log : List α}

def Quiet (rt : Runtime) (note : VM → List α) : Prop :=
  ∀ vm instr, rt.plan.instructions[vm.ctx.ip]? = some instr → instr.op.isArg = true → note vm = []

theorem step_dispatch {instr : Instruction} {k : Nat} (here : rt.plan.instructions[k]? = some instr)
    (dispatched : dispatch rt instr (vm.setIp (k + 1)) = (vm', .ok ())) :
    ((runLoop rt).recording note).Step (vm.setIp k, log) (vm', log ++ note (vm.setIp k)) :=
  Machine.recording_step (runLoop_step.mpr ⟨instr, here, dispatched⟩)

theorem halted_dispatch {instr : Instruction} {k : Nat} {e : Fault String}
    (here : rt.plan.instructions[k]? = some instr)
    (failed : dispatch rt instr (vm.setIp (k + 1)) = (vm', .error e)) :
    ((runLoop rt).recording note).next (vm.setIp k, log) = .inr ((vm', .error e), log ++ note (vm.setIp k)) :=
  Machine.recording_halted (runLoop_halt.mpr (.inr ⟨instr, vm', e, here, failed, rfl⟩))

theorem args_reach (quiet : Quiet rt note) {k m : Nat} (before : k ≤ m) (filled : ∀ i, k ≤ i → i < m →
      ∃ arg, rt.plan.instructions[i]? = some arg ∧ arg.op.isArg = true) :
    ((runLoop rt).recording note).Reaches (vm.setIp k, log) (vm.setIp m, log) := by
  induction before using Nat.decreasingInduction with
  | self => exact .refl
  | of_succ k less ih =>
    obtain ⟨arg, here, isArg⟩ := filled k le_rfl less
    have move : ((runLoop rt).recording note).Step (vm.setIp k, log)
        (vm.setIp (k + 1), log ++ note (vm.setIp k)) := step_dispatch here (dispatch_arg isArg)
    rw [quiet (vm.setIp k) arg here isArg, append_nil] at move
    exact (ih fun i low high => filled i (by omega) high).head move

theorem item_reach (quiet : Quiet rt note) (chained : Chained rt.plan (item :: rest))
    (dispatched : dispatch rt item.instr (vm.setIp (item.place + 1)) = (vm'.setIp (item.place + 1), .ok ())) :
    Relation.TransGen ((runLoop rt).recording note).Step (vm.setIp item.place, log)
      (vm'.setIp (entry rt.plan rest), log ++ note (vm.setIp item.place)) := by
  cases chained with
  | cons here ops filled next chained =>
    apply Relation.TransGen.head' (step_dispatch here dispatched)
    apply args_reach quiet
    · rw [next, ops]
      simp
    · exact fun i low high => filled i low high

theorem act_reach (log : List α) (quiet : Quiet rt note) (chained : Chained rt.plan (item :: rest))
    (notGate : item.instr.op ≠ .gate) (notDrop : item.instr.op ≠ .drop)
    (notJmp : item.instr.op ≠ .jmp)
    (dispatched : dispatch rt item.instr (vm.setIp (item.place + 1)) = (vm', .ok ())) :
    Relation.TransGen ((runLoop rt).recording note).Step (vm.setIp item.place, log)
      (vm'.setIp (entry rt.plan rest), log ++ note (vm.setIp item.place)) := by
  apply item_reach quiet chained
  have kept : (dispatch rt item.instr (vm.setIp (item.place + 1))).1.ctx.ip = item.place + 1 :=
    dispatch_ip notGate notDrop notJmp
  rw [dispatched] at kept ⊢
  have same : vm'.setIp (item.place + 1) = vm' := by
    rw [← kept]
    rfl
  rw [same]

theorem gate_reach (log : List α) (quiet : Quiet rt note) (chained : Chained rt.plan (item :: rest))
    (gate : item.node.control = .gate) {passes : Bool}
    (tells : evaluate rt.host vm.ctx.body item.instr rt.plan = some passes) :
    Relation.TransGen ((runLoop rt).recording note).Step (vm.setIp item.place, log)
      (vm.setIp (if passes then entry rt.plan rest else landing rt.plan rest), log ++ note (vm.setIp item.place)) := by
  have lands := skipCount_landing chained gate
  have op : item.instr.op = .gate := by
    cases chained with
    | cons here ops => exact (ops_control ops).2.1.mpr gate
  cases passes with
  | true =>
    exact item_reach quiet chained (dispatch_gate op tells)
  | false =>
    cases chained with
    | cons here ops filled next chained =>
      rw [← lands]
      exact .single (step_dispatch here (dispatch_gate op tells))

theorem drop_step (note : VM → List α) (vm : VM) (log : List α)
    (chained : Chained rt.plan (item :: rest)) (drop : item.node.control = .drop) :
    ((runLoop rt).recording note).Step (vm.setIp item.place, log)
      (vm.setIp rt.plan.instructions.length, log ++ note (vm.setIp item.place)) := by
  cases chained with
  | cons here ops filled next chained =>
    have op : item.instr.op = .drop := (ops_control ops).2.2.1.mpr drop
    refine step_dispatch here ?_
    simp only [dispatch, op]
    rfl

end

/-- The states in which a run executes a node or evaluates a gate. -/
def visit (rt : Runtime) (vm : VM) : List VM :=
  match rt.plan.instructions[vm.ctx.ip]? with
  | none => []
  | some instr => if instr.op.isArg then [] else [vm]

/-- What a pipeline without labels and jumps is to do, and in which states: every gate is
    evaluated on the current body, every other node is executed if `enabled`, that is, if
    there was no gate or the last one was true.  A drop ends the run. -/
def walk (rt : Runtime) : Bool → List Located → VM → Outcome × List VM
  | _, [], vm => ((vm.setIp rt.plan.instructions.length, .ok ()), [])
  | enabled, item :: rest, vm =>
    let here := vm.setIp item.place
    match item.node.control with
    | .gate =>
      match evaluate rt.host vm.ctx.body item.instr rt.plan with
      | none => ((here.advance, .error .panic), [here])
      | some passes => ((walk rt passes rest vm).1, here :: (walk rt passes rest vm).2)
    | .drop =>
      if enabled then ((vm.setIp rt.plan.instructions.length, .ok ()), [here])
      else walk rt enabled rest vm
    | _ =>
      if enabled then
        match dispatch rt item.instr here.advance with
        | (vm, .ok ()) => ((walk rt enabled rest vm).1, here :: (walk rt enabled rest vm).2)
        | (vm, .error e) => ((vm, .error e), [here])
      else walk rt enabled rest vm

section

variable {rt : Runtime} {item : Located} {rest items : List Located} {vm : VM} {log : List VM}

theorem quiet_visit : Quiet rt (visit rt) := by
  intro vm instr here arg
  simp [visit, here, arg]

theorem visit_item (chained : Chained rt.plan (item :: rest)) :
    visit rt (vm.setIp item.place) = [vm.setIp item.place] := by
  cases chained with
  | cons here ops filled next chained =>
    have work := (ops_control ops).1
    simp only [visit]
    rw [show (vm.setIp item.place).ctx.ip = item.place from rfl, here]
    simp [work]

theorem behind_end : rt.plan.instructions[(vm.setIp rt.plan.instructions.length).ctx.ip]? = none :=
  getElem?_eq_none le_rfl

theorem end_halted {α : Type*} {note : VM → List α} {log : List α}
    (none : note (vm.setIp rt.plan.instructions.length) = []) :
    ((runLoop rt).recording note).next (vm.setIp rt.plan.instructions.length, log) =
      .inr ((vm.setIp rt.plan.instructions.length, .ok ()), log) := by
  have halted : (runLoop rt).next (vm.setIp rt.plan.instructions.length) =
      .inr (vm.setIp rt.plan.instructions.length, .ok ()) :=
    runLoop_halt.mpr (.inl ⟨behind_end, rfl⟩)
  rw [Machine.recording_halted halted, none, append_nil]

theorem visit_end : visit rt (vm.setIp rt.plan.instructions.length) = [] := by
  simp only [visit, behind_end]

theorem walk_skip (notGate : item.node.control ≠ .gate) : walk rt false (item :: rest) vm = walk rt false rest vm := by
  cases kind : item.node.control <;> simp_all [walk]

theorem walk_act (notGate : item.node.control ≠ .gate) (notDrop : item.node.control ≠ .drop) :
    walk rt true (item :: rest) vm =
      match dispatch rt item.instr (vm.setIp item.place).advance with
      | (vm', .ok ()) =>
        ((walk rt true rest vm').1, vm.setIp item.place :: (walk rt true rest vm').2)
      | (vm', .error e) => ((vm', .error e), [vm.setIp item.place]) := by
  cases kind : item.node.control <;> simp_all [walk]

theorem walk_halts (chained : Chained rt.plan items) (straight : ∀ item ∈ items, (∀ name, item.node ≠ .label name) ∧
      ∀ target, item.node ≠ .jmp target) :
    ∀ enabled vm log, ((runLoop rt).recording (visit rt)).Halts
      (vm.setIp (if enabled then entry rt.plan items else landing rt.plan items), log)
      ((walk rt enabled items vm).1, log ++ (walk rt enabled items vm).2) := by
  induction chained with
  | nil =>
    intro enabled vm log
    have place : (if enabled then entry rt.plan [] else landing rt.plan []) =
        rt.plan.instructions.length := by cases enabled <;> rfl
    rw [place]
    refine ⟨_, .refl, ?_⟩
    rw [end_halted visit_end]
    simp [walk]
  | @cons item rest args here ops filled next chained ih =>
    intro enabled vm log
    have whole := Chained.cons here ops filled next chained
    have onward := ih fun item inside => straight item (mem_cons_of_mem _ inside)
    have noted : visit rt (vm.setIp item.place) = [vm.setIp item.place] := visit_item whole
    obtain ⟨-, isGate, isDrop, isLabel, isJmp⟩ := ops_control ops
    have notLabel : item.instr.op ≠ .label := by
      intro op
      obtain ⟨name, label⟩ := isLabel.mp op
      exact (straight item mem_cons_self).1 name (ASTNode.control_eq_label.mp label)
    have notJmp : item.instr.op ≠ .jmp := by
      intro op
      obtain ⟨target, jmp⟩ := isJmp.mp op
      exact (straight item mem_cons_self).2 target (ASTNode.control_eq_jmp.mp jmp)
    by_cases gate : item.node.control = .gate
    · have op := isGate.mpr gate
      have place : (if enabled then entry rt.plan (item :: rest)
          else landing rt.plan (item :: rest)) = item.place := by
        simp [entry, landing, op, OpCode.isStop]
      rw [place]
      simp only [walk, gate]
      cases tells : evaluate rt.host vm.ctx.body item.instr rt.plan with
      | none =>
        have failed : dispatch rt item.instr (vm.setIp (item.place + 1)) = (_, .error .panic) :=
          dispatch_gate op tells
        refine ⟨_, .refl, ?_⟩
        rw [halted_dispatch here failed, noted]
        rfl
      | some passes =>
        have path := gate_reach log quiet_visit whole gate tells
        rw [noted] at path
        have ended := (onward passes vm (log ++ [vm.setIp item.place])).before path.to_reflTransGen
        rwa [append_assoc] at ended
    · cases enabled with
      | false =>
        have passed : landing rt.plan (item :: rest) = landing rt.plan rest := by
          have noStop : item.instr.op.isStop = false := by
            rw [Bool.eq_false_iff, ne_eq, OpCode.isStop_iff, not_or]
            exact ⟨mt isGate.mp gate, notLabel⟩
          simp [landing, noStop]
        rw [walk_skip gate, passed]
        exact onward false vm log
      | true =>
        by_cases drop : item.node.control = .drop
        · have ended := drop_step (visit rt) vm log whole drop
          rw [noted] at ended
          refine ⟨_, .single ended, ?_⟩
          rw [end_halted visit_end]
          simp [walk, drop]
        · have notGate := mt isGate.mp gate
          have notDrop := mt isDrop.mp drop
          rw [walk_act gate drop]
          rcases done : dispatch rt item.instr (vm.setIp (item.place + 1)) with ⟨vm', e | _⟩
          · have advanced : dispatch rt item.instr (vm.setIp item.place).advance = _ := done
            refine ⟨_, .refl, ?_⟩
            rw [advanced]
            exact (halted_dispatch here done).trans (by rw [noted])
          · have advanced : dispatch rt item.instr (vm.setIp item.place).advance = _ := done
            have path := act_reach log quiet_visit whole notGate notDrop notJmp done
            rw [noted] at path
            have ended := (onward true vm' (log ++ [vm.setIp item.place])).before path.to_reflTransGen
            rw [advanced]
            rwa [append_assoc] at ended

end

variable {self : Compiler} {nodes : List ASTNode} {ruleId : String} {plan : ExecutionPlan}

/-- A pipeline without labels and jumps runs exactly its enabled segments: the compiled plan has all the nodes, the run
on it halts with what the walk over them gives, and it executes nodes and evaluates gates in the states that the walk
lists. -/
theorem compile_runs_segments (h : self.compile nodes ruleId = .ok plan)
    (straight : ∀ node ∈ nodes, (∀ name, node ≠ .label name) ∧ ∀ target, node ≠ .jmp target)
    (host : Host) (scheduler : Scheduler) (caller : Caller) (ctx : ExecutionContext) :
    Lists nodes (located plan 0 nodes) ∧ Runs ⟨host, scheduler, plan, caller⟩ ctx
        (walk ⟨host, scheduler, plan, caller⟩ true (located plan 0 nodes) (init ctx)).1 ∧
      ((runLoop ⟨host, scheduler, plan, caller⟩).recording (visit ⟨host, scheduler, plan, caller⟩)).Halts (init ctx, [])
        (walk ⟨host, scheduler, plan, caller⟩ true (located plan 0 nodes) (init ctx)) := by
  obtain ⟨chained, first, lists⟩ := located_chained nodes 0 (Nat.zero_le _) (Compiler.compile_ops h)
  have halts : ((runLoop ⟨host, scheduler, plan, caller⟩).recording
      (visit ⟨host, scheduler, plan, caller⟩)).Halts ((init ctx).setIp (entry plan (located plan 0 nodes)), [])
      (walk ⟨host, scheduler, plan, caller⟩ true (located plan 0 nodes) (init ctx)) :=
    walk_halts chained (fun item inside => straight item.node (located_node nodes 0 item inside)) true (init ctx) []
  rw [first] at halts
  exact ⟨lists, halts.of_recording, halts⟩

def oneAtX : Host :=
  { Host.mute with
    fromSlice := fun _ => .ok (.obj [("x", .str "1")])
    jsonText := fun value => match value with
      | .str text => text
      | _ => "" }

def gatedNodes : List ASTNode :=
  [.next "a", .gate "x" "==" "1", .emit ["b"], .gate "y" "==" "1", .next "c"]

theorem compile_runs_segments_gated :
    Compiler.ascii.compile gatedNodes "r" = .ok (Compiler.ascii.planOf gatedNodes "r") ∧
      ((runLoop ⟨oneAtX, .inOrder, Compiler.ascii.planOf gatedNodes "r", fun _ call => .ok call.body⟩).recording
          (visit ⟨oneAtX, .inOrder, Compiler.ascii.planOf gatedNodes "r", fun _ call => .ok call.body⟩)).Halts
        (init (.fromBody [120]), [])
        ((⟨⟨[120], false, [], 1, 8⟩, [⟨0, [120], 0⟩, ⟨1, [120], 0⟩]⟩, .ok ()),
          [⟨⟨[120], false, [], 0, 0⟩, []⟩, ⟨⟨[120], false, [], 1, 1⟩, [⟨0, [120], 0⟩]⟩,
            ⟨⟨[120], false, [], 1, 3⟩, [⟨0, [120], 0⟩]⟩,
            ⟨⟨[120], false, [], 1, 5⟩, [⟨0, [120], 0⟩, ⟨1, [120], 0⟩]⟩]) := by
  have compiled : Compiler.ascii.compile gatedNodes "r" = .ok (Compiler.ascii.planOf gatedNodes "r") := rfl
  exact ⟨compiled, (compile_runs_segments compiled (by simp [gatedNodes]) oneAtX .inOrder
    (fun _ call => .ok call.body) (.fromBody [120])).2.2⟩

end VM

end FlowRulZ
