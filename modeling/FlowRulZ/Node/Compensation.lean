import FlowRulZ.Node.Production
import FlowRulZ.Reliability.Saga

/-! # Compensation of a failed execution

`runSteps` registers a step that declares a compensation before it calls the service, and
has the tracker compensate all registered steps when the execution fails.  So a call that
fails is compensated as well.
-/

namespace FlowRulZ.Node

open List Turn

open Saga Component

def sagaOp : Effect → Option SagaTracker.Op
  | .registerStep step => some (.registerStep step)
  | .compensate => some .compensate
  | .clearSaga => some .clear
  | .create _ | .save _ | .call _ => none

/-- The compensation that the name of a service declares for a call. -/
def declared (names : Names) (pending : Call) : Option Compensation :=
  let (_, _, compSvc, compMethod) := parseCompensation (rawName names pending.svcId)
  if compSvc = "" then none else some ⟨compSvc, compMethod, pending.body⟩

def Turn.succeeded : Turn → Option Call
  | .answered pending _ _ => some pending
  | _ => none

variable (node : ProdNode)

def turns (plan : Bytes) : List Turn :=
  turnsFrom node plan (planNames node plan) maxExecutionSteps [] none {}
    (if node.hasStateStore then [.create {}] else [])

/-- The compensations made are those of the calls that succeeded, last call first, if the execution failed, and none if
it is done. -/
structure Compensates (plan body : Bytes) (made : List Compensation) : Prop where
  failed : (executePlan node plan body).1.toOption = none →
    made = (((turns node plan).filterMap Turn.succeeded).filterMap (declared (planNames node plan))).reverse
  done : (executePlan node plan body).1.toOption ≠ none → made = []

def Turn.registered (names : Names) (now : Turn) : Option SagaStep :=
  now.call?.bind fun (pending, _, _) =>
    if (sagaStep names pending).compSvc ≠ "" then some (sagaStep names pending) else none

def ending : Except String Bytes → SagaTracker.Op
  | .ok _ => .clear
  | .error _ => .compensate

section

variable {node} {plan ctxBytes : Bytes} {names : Names} {step : Nat}
  {resp : Option Bytes} {st : ExecState} {log : List Effect} {now : Turn}

@[simp]
theorem sagaOps_saving (st : ExecState) : (saving node st).filterMap sagaOp = [] := by
  unfold saving
  split <;> rfl

section

variable (saga : node.hasSaga = true)
include saga

@[simp]
theorem sagaOps_tryCompensate : (tryCompensate node).filterMap sagaOp = [.compensate] := by
  simp [tryCompensate, saga, sagaOp]

theorem sagaOps_registering (pending : Call) : (registering node names pending).filterMap sagaOp =
      (if (sagaStep names pending).compSvc ≠ "" then some (sagaStep names pending) else none).toList.map
        .registerStep := by
  unfold registering
  by_cases named : (sagaStep names pending).compSvc = "" <;> simp [saga, named, sagaOp]

theorem sagaOps_effects_inl {next : Bytes × Option Bytes} (goes : now.next names step = .inl next) :
    (now.effects node names st).filterMap sagaOp = (now.registered names).toList.map .registerStep := by
  cases now <;> cases goes
  · simp only [effects, announcing, filterMap_append, sagaOps_saving,
      sagaOps_registering saga, registered, call?, Option.bind_some]
    simp [sagaOp]
  · simp [effects, registered, call?]

theorem sagaOps_effects_inr {out : Except String Bytes} (ends : now.next names step = .inr out) :
    (now.effects node names st).filterMap sagaOp = (now.registered names).toList.map .registerStep ++ [ending out] := by
  cases now <;> cases ends
  case refused =>
    simp only [effects, announcing, filterMap_append, sagaOps_saving,
      sagaOps_registering saga, sagaOps_tryCompensate saga, registered, call?, Option.bind_some]
    simp [sagaOp, ending]
  case done => simp [effects, registered, call?, saga, sagaOp, ending]
  all_goals simp [effects, registered, call?, saga, ending]

/-- The loop registers the steps of its turns and then clears or compensates. -/
theorem runSteps_sagaOps (plan : Bytes) (names : Names) (left : Nat) :
    ∀ (ctxBytes : Bytes) (resp : Option Bytes) (st : ExecState) (log : List Effect),
      (runSteps node plan names left ctxBytes resp st log).2.2.filterMap sagaOp = log.filterMap sagaOp ++
          (((turnsFrom node plan names left ctxBytes resp st log).filterMap (·.registered names)).map
            .registerStep ++ [ending (runSteps node plan names left ctxBytes resp st log).1]) := by
  induction left with
  | zero =>
    intro ctxBytes resp st log
    simp [runSteps, turnsFrom, saga, ending]
  | succ left ih =>
    intro ctxBytes resp st log
    simp only [runSteps_succ, turnsFrom]
    cases goes : (turn node plan names (maxExecutionSteps - (left + 1)) ctxBytes resp st log).next names
        (maxExecutionSteps - (left + 1)) with
    | inl next =>
      simp only [ih, filterMap_append, sagaOps_effects_inl saga goes, filterMap_cons]
      cases (turn node plan names (maxExecutionSteps - (left + 1)) ctxBytes resp st log).registered names <;>
        simp
    | inr out =>
      simp only [filterMap_append, sagaOps_effects_inr saga goes, filterMap_cons]
      cases (turn node plan names (maxExecutionSteps - (left + 1)) ctxBytes resp st log).registered names <;>
        simp

end

theorem runSteps_refused (plan : Bytes) (names : Names) {pending : Call} {ctx : Bytes}
    {e : String} (left : Nat) :
    ∀ (ctxBytes : Bytes) (resp : Option Bytes) (st : ExecState) (log : List Effect),
      .refused pending ctx e ∈ turnsFrom node plan names left ctxBytes resp st log →
        (runSteps node plan names left ctxBytes resp st log).1.toOption = none := by
  induction left with
  | zero => exact fun _ _ _ _ _ => rfl
  | succ left ih =>
    intro ctxBytes resp st log refused
    simp only [runSteps_succ]
    simp only [turnsFrom] at refused
    cases goes : (turn node plan names (maxExecutionSteps - (left + 1)) ctxBytes resp st log).next names
        (maxExecutionSteps - (left + 1)) with
    | inl next =>
      simp only [goes, mem_cons] at refused
      rcases refused with now | later
      · rw [← now] at goes
        cases goes
      · exact ih _ _ _ _ later
    | inr out =>
      simp only [goes, mem_singleton] at refused
      rw [← refused] at goes
      cases goes
      rfl

theorem executePlan_sagaOps (saga : node.hasSaga = true) (plan body : Bytes) :
    (executePlan node plan body).2.filterMap sagaOp =
      ((turns node plan).filterMap (·.registered (planNames node plan))).map .registerStep ++
        [ending (executePlan node plan body).1] := by
  have created : (if node.hasStateStore then [Effect.create {}] else []).filterMap sagaOp = [] := by
    split <;> rfl
  obtain ⟨st, executed⟩ := executePlan_eq node plan body
  rw [executed]
  simp only [filterMap_append, sagaOps_saving, append_nil, runSteps_sagaOps saga, created, nil_append, turns]

theorem executePlan_refused {pending : Call} {ctx : Bytes} {e : String} (body : Bytes)
    (refused : .refused pending ctx e ∈ turns node plan) :
    (executePlan node plan body).1.toOption = none := by
  obtain ⟨st, executed⟩ := executePlan_eq node plan body
  rw [executed]
  exact runSteps_refused plan (planNames node plan) maxExecutionSteps _ _ _ _ refused

def Turn.compensation (names : Names) (now : Turn) : Option Compensation :=
  now.call?.bind fun call => declared names call.1

/-- The compensation that is owed if the execution fails later. -/
def Turn.owed (names : Names) (now : Turn) : Option Compensation :=
  now.succeeded.bind (declared names)

def Turn.disputed (names : Names) : Turn → Bool
  | .refused pending _ _ => (declared names pending).isSome
  | _ => false

theorem registered_compensation (names : Names) (now : Turn) :
    (now.registered names).bind SagaTracker.compensationOf = now.compensation names := by
  unfold registered compensation
  rw [Option.bind_assoc]
  congr 1
  funext call
  unfold declared SagaTracker.compensationOf sagaStep
  by_cases named : (parseCompensation (rawName names call.1.svcId)).2.2.1 = "" <;> simp [named]

theorem isSome_compensation (names : Names) (now : Turn) :
    (if (now.compensation names).isSome then 1 else 0) =
      (if (now.owed names).isSome then 1 else 0) + if now.disputed names then 1 else 0 := by
  cases now with
  | refused pending _ _ =>
    cases named : declared names pending <;>
      simp [compensation, owed, disputed, call?, succeeded, named]
  | _ => rfl

theorem length_compensations (names : Names) (ts : List Turn) :
    (ts.filterMap (compensation names)).length = (ts.filterMap (owed names)).length + ts.countP (disputed names) := by
  simp only [length_filterMap_eq_countP]
  induction ts with
  | nil => rfl
  | cons now ts ih =>
    have head := isSome_compensation names now
    simp only [countP_cons]
    omega

/-- The compensations declared are those owed if no call that declares one fails. -/
theorem compensations_eq_iff (names : Names) (ts : List Turn) :
    ts.filterMap (compensation names) = ts.filterMap (owed names) ↔ ∀ now ∈ ts, now.disputed names = false := by
  constructor
  · intro same
    have lengths := length_compensations names ts
    rw [same] at lengths
    have none_ : ts.countP (disputed names) = 0 := by omega
    simpa [countP_eq_zero] using none_
  · intro fine
    apply filterMap_congr
    intro now there
    have undisputed := fine now there
    cases now with
    | refused pending _ _ =>
      simpa [compensation, owed, disputed, call?, succeeded] using undisputed
    | _ => rfl

/-- The compensations that an execution makes, whatever other executions ask in between. -/
theorem compensations_made (saga : node.hasSaga = true) (st : SagaTracker) {execID : String}
    {entries : String → Entry} (fresh : (entries execID).steps = []) {body : Bytes}
    {history : List (String × SagaTracker.Op)}
    (mine : own execID history = (executePlan node plan body).2.filterMap sagaOp) :
    own execID (st.tracker.keyed.run entries history).2 =
      match (executePlan node plan body).1 with
      | .ok _ => []
      | .error _ => ((turns node plan).filterMap (compensation (planNames node plan))).reverse := by
  rw [(keyed_run _ _ _ _).2, mine, executePlan_sagaOps saga]
  cases (executePlan node plan body).1 with
  | ok out => exact st.run_clear _ _
  | error e =>
    rw [ending, st.run_compensate _ fresh, filterMap_filterMap]
    simp only [registered_compensation]

/-- The compensations of an execution are the ones of the calls that succeeded if and only if no call that declares a
compensation fails. -/
theorem compensates_iff (saga : node.hasSaga = true) (st : SagaTracker) {execID : String}
    {entries : String → Entry} (fresh : (entries execID).steps = []) {body : Bytes}
    {history : List (String × SagaTracker.Op)}
    (mine : own execID history = (executePlan node plan body).2.filterMap sagaOp) :
    Compensates node plan body (own execID (st.tracker.keyed.run entries history).2) ↔
      ∀ pending ctxBytes e, .refused pending ctxBytes e ∈ turns node plan →
        declared (planNames node plan) pending = none := by
  have condition : (∀ pending ctxBytes e, .refused pending ctxBytes e ∈ turns node plan →
      declared (planNames node plan) pending = none) ↔
      ∀ now ∈ turns node plan, now.disputed (planNames node plan) = false := by
    constructor
    · intro fine now there
      cases now with
      | refused pending ctxBytes e => simp [disputed, fine pending ctxBytes e there]
      | _ => rfl
    · intro fine pending ctxBytes e there
      simpa [disputed] using fine _ there
  have owed : (turns node plan).filterMap (owed (planNames node plan)) =
      ((turns node plan).filterMap succeeded).filterMap (declared (planNames node plan)) :=
    filterMap_filterMap.symm
  have made := compensations_made saga st fresh mine
  cases ended : (executePlan node plan body).1 with
  | ok out =>
    simp only [ended] at made
    have done : (executePlan node plan body).1.toOption ≠ none := by simp [ended, Except.toOption]
    constructor
    · intro _ pending ctxBytes e refused
      exact absurd (executePlan_refused body refused) done
    · intro _
      exact ⟨fun failed => absurd failed done, fun _ => made⟩
  | error e =>
    simp only [ended] at made
    have failed : (executePlan node plan body).1.toOption = none := by rw [ended]; rfl
    rw [condition, ← compensations_eq_iff, owed]
    constructor
    · intro compensates
      have same := compensates.failed failed
      rw [made] at same
      exact reverse_injective same
    · intro same
      refine ⟨fun _ => ?_, fun done => absurd failed done⟩
      rw [made, same]

end

def failing (nodes : List ASTNode) : ProdNode :=
  { counting nodes with
    hasSaga := true
    callService := fun _ call => if call.service = "b" then .error "down" else .ok [1] }

def strict : SagaTracker := ⟨fun _ _ => some "down", ""⟩

/-- The first call is compensated if the second one fails, while another execution goes on. -/
theorem compensates_first :
    let node := failing [.next "a.m:u", .next "b"]
    let history : List (String × SagaTracker.Op) :=
      [("x", .registerStep ⟨"a", "m", [], "a", "u"⟩), ("y", .registerStep ⟨"c", "", [], "c", "v"⟩),
        ("x", .compensate), ("y", .clear)]
    own "x" history = (executePlan node [0] [7]).2.filterMap sagaOp ∧
      Compensates node [0] [7] (own "x" (strict.tracker.keyed.run (fun _ => {}) history).2) ∧
      (strict.tracker.keyed.run (fun _ => {}) history).2 = [("x", ⟨"a", "u", []⟩)] := by
  have mine : own "x" [("x", SagaTracker.Op.registerStep ⟨"a", "m", [], "a", "u"⟩),
      ("y", .registerStep ⟨"c", "", [], "c", "v"⟩), ("x", .compensate), ("y", .clear)] =
      (executePlan (failing [.next "a.m:u", .next "b"]) [0] [7]).2.filterMap sagaOp := by decide +kernel
  refine ⟨mine, ?_, by decide +kernel⟩
  apply (compensates_iff rfl strict rfl mine).mpr
  have refused : ∀ now ∈ turns (failing [.next "a.m:u", .next "b"]) [0],
      now.disputed (planNames (failing [.next "a.m:u", .next "b"]) [0]) = false := by decide +kernel
  intro pending ctxBytes e there
  simpa [disputed] using refused _ there

/-- The call that failed is compensated too. -/
theorem compensates_failed_call :
    let node := failing [.next "a.m:u", .next "b.m:v"]
    let ops := (executePlan node [0] [7]).2.filterMap sagaOp
    ((turns node [0]).filterMap Turn.succeeded).filterMap (declared (planNames node [0])) = [⟨"a", "u", []⟩] ∧
      (strict.tracker.run {} ops).2 = [⟨"b", "v", [1]⟩, ⟨"a", "u", []⟩] ∧
      ¬ Compensates node [0] [7] (strict.tracker.run {} ops).2 := by
  intro node ops
  have owed : ((turns node [0]).filterMap succeeded).filterMap (declared (planNames node [0])) =
      [⟨"a", "u", []⟩] := by decide +kernel
  have made : (strict.tracker.run {} ops).2 = [⟨"b", "v", [1]⟩, ⟨"a", "u", []⟩] := by decide +kernel
  refine ⟨owed, made, ?_⟩
  intro compensates
  have same := compensates.failed (by decide +kernel)
  rw [made, owed] at same
  simp at same

end FlowRulZ.Node
