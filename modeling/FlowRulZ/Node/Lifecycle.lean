import FlowRulZ.Node.Production

/-! # The life of an execution

Recovery rests on the order of the effects: a call is made only after the state that waits for it was saved, and
nothing is saved after the end.
-/

namespace FlowRulZ.Node

inductive Phase where
  | running
  | waiting (st : ExecState)
  | called
  | closing (status : Status)
  | ended
  deriving Repr, DecidableEq

/-- The effects that an execution with a state store may have in a phase. -/
def Phase.next (names : Names) : Phase → Effect → Option Phase
  | .running, .save st =>
    match st.status with
    | .running => some .running
    | .waitingForService => some (.waiting st)
    | .completed | .failed => some .ended
    | .created => none
  | .waiting st, .registerStep step =>
    if step = sagaStep names ⟨st.pendingSvc, st.pendingBody, 0⟩ then some (.waiting st) else none
  | .waiting st, .call call =>
    if { call with timeoutMs := 0 } = serviceCall names ⟨st.pendingSvc, st.pendingBody, 0⟩ then some .called else none
  | .called, .save st =>
    if st.status = .running ∧ st.pendingSvc = 0 ∧ st.pendingBody = [] then some .running
    else if st.status = .failed then some .ended else none
  | .running, .clearSaga => some (.closing .completed)
  | .running, .compensate | .called, .compensate => some (.closing .failed)
  | .closing status, .save st => if st.status = status then some .ended else none
  | _, _ => none

/-- The phases from which the result is saved. -/
def Phase.Closes (status : Status) : Phase → Prop
  | .running => True
  | .called => status = .failed
  | .closing expected => expected = status
  | _ => False

def finalStatus : Except String Bytes → Status
  | .ok _ => .completed
  | .error _ => .failed

theorem Phase.Closes.save {names : Names} {phase : Phase} {result : Except String Bytes} {st : ExecState}
    (closes : phase.Closes (finalStatus result)) (status : st.status = finalStatus result) :
    [Effect.save st].foldlM (Phase.next names) phase = some .ended := by
  cases result <;> cases phase <;> simp_all [Phase.Closes, Phase.next, finalStatus]

section

variable {node : ProdNode} (store : node.hasStateStore = true) (plan : Bytes) (names : Names)
include store

theorem announcing_called (pending : Call) (ctxBytes : Bytes) (st : ExecState) :
    (announcing node names pending ctxBytes st ++ [Effect.call (serviceCall names pending)]).foldlM (Phase.next names)
      .running = some .called := by
  unfold announcing registering
  split_ifs <;> simp [saving, waitingFor, store, Phase.next, serviceCall, sagaStep]

theorem turn_lifecycle (now : Turn) (step : Nat) (st : ExecState) :
    ∃ phase, (now.effects node names st).foldlM (Phase.next names) .running = some phase ∧
      match now.next names step with
      | .inl _ => phase = .running
      | .inr result => phase.Closes (finalStatus result) := by
  cases now with
  | refused pending ctxBytes e | answered pending ctxBytes e =>
    simp only [Turn.effects]
    rw [List.foldlM_append, announcing_called store names]
    cases saga : node.hasSaga <;>
      simp [tryCompensate, saving, Turn.state, Turn.next, store, saga, Phase.next, Phase.Closes, finalStatus]
  | _ =>
    cases saga : node.hasSaga <;>
      simp [Turn.effects, Turn.next, Turn.state, saving, tryCompensate, store, saga,
        Phase.next, Phase.Closes, finalStatus]

theorem runSteps_lifecycle (left : Nat) :
    ∀ ctxBytes resp st log, let ran := runSteps node plan names left ctxBytes resp st log
      ∃ more phase, ran.2.2 = log ++ more ∧ more.foldlM (Phase.next names) .running = some phase ∧
        phase.Closes (finalStatus ran.1) := by
  induction left with
  | zero =>
    intro ctxBytes resp st log
    refine ⟨tryCompensate node, ?_⟩
    cases saga : node.hasSaga <;> simp [runSteps, tryCompensate, saga, Phase.next, Phase.Closes, finalStatus]
  | succ left ih =>
    intro ctxBytes resp st log
    dsimp only
    rw [runSteps_succ]
    dsimp only
    generalize maxExecutionSteps - (left + 1) = step
    generalize turn node plan names step ctxBytes resp st log = now
    obtain ⟨phase, accepted, goes⟩ := turn_lifecycle store names now step st
    cases after : now.next names step with
    | inl position =>
      rw [after] at goes
      subst goes
      obtain ⟨more, phase, logged, later, closes⟩ :=
        ih position.1 position.2 (now.state node st) (log ++ now.effects node names st)
      refine ⟨now.effects node names st ++ more, phase, by simp [logged], ?_, closes⟩
      rw [List.foldlM_append, accepted]
      exact later
    | inr result =>
      rw [after] at goes
      exact ⟨_, phase, rfl, accepted, goes⟩

/-- On a node with a state store, the effects of every execution are those of its life: each call comes after the
state that waits for it, and the last effect saves the result. -/
theorem executePlan_lifecycle (body : Bytes) : ∃ log, (executePlan node plan body).2 = .create {} :: log ∧
      log.foldlM (Phase.next (planNames node plan)) .running = some .ended := by
  obtain ⟨more, phase, logged, accepted, closes⟩ := runSteps_lifecycle store plan (planNames node plan)
    maxExecutionSteps [] none {} [.create {}]
  unfold executePlan
  dsimp only
  rw [if_pos store]
  split <;> rename_i ended <;> rw [ended] at logged closes
  all_goals
    dsimp only at logged
    refine ⟨more ++ saving node _, congrArg (· ++ _) logged, ?_⟩
    rw [List.foldlM_append, accepted, saving, if_pos store]
    exact closes.save rfl

end

theorem executePlan_lifecycle_call : let node := { counting [.next "a"] with hasStateStore := true }
    serviceCalls (executePlan node [0] [7]).2 = [⟨"a", "", [], 0⟩] ∧
      ∃ log, (executePlan node [0] [7]).2 = .create {} :: log ∧
        log.foldlM (Phase.next (planNames node [0])) .running = some .ended :=
  ⟨by decide +kernel, executePlan_lifecycle rfl [0] [7]⟩

end FlowRulZ.Node
