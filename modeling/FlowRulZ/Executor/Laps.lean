import FlowRulZ.Executor.Segments
import FlowRulZ.Lib.Laps

/-! # Backward jumps

A gate skips forward and a drop leaves the plan, so only a jump can take the pointer back.  The
instructions that `VM::run` dispatches are therefore in laps, and a plan without backward jumps
runs to its end.  This holds for any plan, compiled or not.
-/

namespace FlowRulZ.VM

/-- The instruction at a place is a jump to that place or before it. -/
def goesBack (plan : ExecutionPlan) (place : Nat) : Bool :=
  match plan.instructions[place]? with
  | some instr => instr.op = .jmp ∧ instr.a.toNat ≤ place
  | none => false

/-- The places of the instructions that the loop of `VM::run` dispatches, the first `fuel` of them. The last one may
fail. -/
def dispatches (rt : Runtime) : Nat → VM → List Nat
  | 0, _ => []
  | fuel + 1, vm =>
    match rt.plan.instructions[vm.ctx.ip]? with
    | none => []
    | some instr =>
      vm.ctx.ip :: match dispatch rt instr vm.advance with
        | (vm, .ok ()) => dispatches rt fuel vm
        | (_, .error _) => []

section

variable {rt : Runtime} {vm vm' : VM} {instr : Instruction}

theorem dispatch_forward (here : rt.plan.instructions[vm.ctx.ip]? = some instr)
    (moved : dispatch rt instr vm.advance = (vm', .ok ())) (onward : goesBack rt.plan vm.ctx.ip = false) :
    vm.ctx.ip < vm'.ctx.ip := by
  by_cases gate : instr.op = .gate
  · simp only [dispatch, gate, opGate] at moved
    split at moved
    · cases moved
    · cases moved
      exact Nat.lt_succ_self _
    · cases moved
      simp only [setIp, advance]
      omega
  by_cases drop : instr.op = .drop
  · simp only [dispatch, drop] at moved
    cases moved
    exact (List.getElem?_eq_some_iff.mp here).1
  by_cases jmp : instr.op = .jmp
  · simp only [dispatch, jmp, opJmp] at moved
    split at moved
    · cases moved
    · cases moved
      simp only [goesBack, here, jmp, true_and, decide_eq_false_iff_not] at onward
      simp only [setIp]
      omega
  · have kept : (dispatch rt instr vm.advance).1.ctx.ip = vm.ctx.ip + 1 := dispatch_ip gate drop jmp
    rw [moved] at kept
    exact kept ▸ Nat.lt_succ_self _

theorem dispatches_head (fuel : Nat) (vm : VM) : ∀ place ∈ (dispatches rt fuel vm).head?, place = vm.ctx.ip := by
  intro place first
  cases fuel with
  | zero => cases first
  | succ fuel =>
    unfold dispatches at first
    split at first
    · cases first
    · cases first
      rfl

theorem dispatches_inLaps (fuel : Nat) (vm : VM) : InLaps (goesBack rt.plan) (dispatches rt fuel vm) := by
  induction fuel generalizing vm with
  | zero => exact .nil
  | succ fuel ih =>
    unfold dispatches
    split
    · exact .nil
    · rename_i instr here
      split
      · rename_i vm' moved
        refine List.isChain_cons.mpr ⟨?_, ih vm'⟩
        intro place first onward
        rw [dispatches_head fuel vm' place first]
        exact dispatch_forward here moved onward
      · exact .singleton _

theorem dispatches_inside (fuel : Nat) (vm : VM) :
    ∀ place ∈ dispatches rt fuel vm, place < rt.plan.instructions.length := by
  induction fuel generalizing vm with
  | zero => exact List.forall_mem_nil _
  | succ fuel ih =>
    unfold dispatches
    split
    · exact List.forall_mem_nil _
    · rename_i instr here
      refine List.forall_mem_cons.mpr ⟨(List.getElem?_eq_some_iff.mp here).1, ?_⟩
      split
      · exact ih _
      · exact List.forall_mem_nil _

end

/-- Only backward jumps repeat work: between two dispatches of one place a backward jump is dispatched, or it is the
first of them; so with `k` backward jumps at most `k + 1` times the length of the plan is dispatched, and without any
the run ends. -/
theorem only_backward_jumps_repeat (rt : Runtime) (ctx : ExecutionContext) : (∀ fuel,
      (∀ i j place : Nat, i < j → (dispatches rt fuel (init ctx))[i]? = some place →
        (dispatches rt fuel (init ctx))[j]? = some place →
        ∃ k jump, i ≤ k ∧ k < j ∧ (dispatches rt fuel (init ctx))[k]? = some jump ∧ goesBack rt.plan jump = true) ∧
      (dispatches rt fuel (init ctx)).length ≤
        rt.plan.instructions.length * ((dispatches rt fuel (init ctx)).countP (goesBack rt.plan) + 1)) ∧
    ((∀ place, goesBack rt.plan place = false) → ∃ result, Runs rt ctx result) := by
  constructor
  · intro fuel
    have inLaps : InLaps (goesBack rt.plan) (dispatches rt fuel (init ctx)) := dispatches_inLaps fuel (init ctx)
    constructor
    · intro i j place before first second
      exact inLaps.back_between before first second
    · exact inLaps.length_le (dispatches_inside fuel (init ctx))
  · intro forward
    -- the pointer comes closer to the end of the plan
    refine Machine.halts_of_falls (fun vm => rt.plan.instructions.length - vm.ctx.ip) ?_ (init ctx)
    intro vm vm' move
    obtain ⟨instr, here, moved⟩ := runLoop_step.mp move
    have inside := (List.getElem?_eq_some_iff.mp here).1
    have further := dispatch_forward here moved (forward vm.ctx.ip)
    omega

theorem forward_jump_ends :
    let plan : ExecutionPlan := { ExecutionPlan.new "r" with instructions := [.jmp 2, .buffer 1, .label] }
    ∃ result, Runs ⟨Host.mute, .inOrder, plan, fun _ call => .ok call.body⟩ (.fromBody []) result := by
  refine (only_backward_jumps_repeat _ _).2 ?_
  intro place
  rcases place with _ | _ | _ | place <;> rfl

end FlowRulZ.VM
