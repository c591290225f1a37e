import FlowRulZ.Lib.Component
import FlowRulZ.Node.ExecutePlan

/-! # The saga tracker

`SagaTracker` keeps the steps of each execution, in memory and in a file, and calls their
compensations in reverse order.  The map of an execution's id to its steps and the directory
are one entry for each id here.
-/

namespace FlowRulZ.Saga

open Node (SagaStep)

structure Compensation where
  service : String
  method : String
  body : Bytes
  deriving Repr, DecidableEq

/-- `CompensatorFunc`: the error of a call after the calls before it, or nil. -/
abbrev CompensatorFunc := List Compensation → Compensation → Option String

/-- What there is of an execution: its steps, and the steps in its file. -/
structure Entry where
  steps : List SagaStep := []
  file : Option (List SagaStep) := none
  deriving Repr, DecidableEq

/-- The compensator and the directory; an empty name is no directory. -/
structure SagaTracker where
  call : CompensatorFunc
  dir : String

namespace SagaTracker

variable (st : SagaTracker)

/-- `persistLocked`, if the file can be written. -/
def persistLocked (entry : Entry) : Entry :=
  if st.dir = "" then entry else { entry with file := some entry.steps }

def registerStep (step : SagaStep) (entry : Entry) : Entry :=
  st.persistLocked { entry with steps := entry.steps ++ [step] }

def compensateLoop : List SagaStep → List Compensation → List String → List Compensation × List String
  | [], made, errs => (made, errs)
  | s :: rest, made, errs =>
    if s.compSvc = "" ∧ s.compMethod = "" then compensateLoop rest made errs
    else
      let call : Compensation := ⟨s.compSvc, s.compMethod, s.body⟩
      match st.call made call with
      | some err =>
        compensateLoop rest (made ++ [call]) (errs ++ [s!"compensate {s.serviceName}/{s.method}: {err}"])
      | none => compensateLoop rest (made ++ [call]) errs

/-- `Compensate`: the calls made and the error, if there is one. The file stays. -/
def compensate (entry : Entry) : Entry × List Compensation × Option String :=
  let (made, errs) := st.compensateLoop entry.steps.reverse [] []
  let listed := String.intercalate " " errs
  ({ entry with steps := [] }, made,
    if errs = [] then none else some s!"saga compensation errors: [{listed}]")

def clear (entry : Entry) : Entry :=
  if st.dir = "" then { entry with steps := [] } else { entry with steps := [], file := none }

inductive Op where
  | registerStep (step : SagaStep)
  | compensate
  | clear
  deriving Repr, DecidableEq

def tracker : Component Entry Op Compensation where
  handle entry op :=
    match op with
    | .registerStep step => (st.registerStep step entry, [])
    | .compensate => ((st.compensate entry).1, (st.compensate entry).2.1)
    | .clear => (st.clear entry, [])

/-- The compensation of a step; none if neither service nor method is given. -/
def compensationOf (s : SagaStep) : Option Compensation :=
  if s.compSvc = "" ∧ s.compMethod = "" then none else some ⟨s.compSvc, s.compMethod, s.body⟩

/-- Every compensation is called, whether or not those before it failed. -/
theorem compensateLoop_made (steps : List SagaStep) (made : List Compensation) (errs : List String) :
    (st.compensateLoop steps made errs).1 = made ++ steps.filterMap compensationOf := by
  induction steps generalizing made errs with
  | nil => simp [compensateLoop]
  | cons s rest ih =>
    unfold compensateLoop
    by_cases skipped : s.compSvc = "" ∧ s.compMethod = ""
    · have without : compensationOf s = none := if_pos skipped
      rw [if_pos skipped, ih, List.filterMap_cons_none without]
    · have compensation : compensationOf s = some ⟨s.compSvc, s.compMethod, s.body⟩ := if_neg skipped
      rw [if_neg skipped, List.filterMap_cons_some compensation]
      dsimp only
      split <;> rw [ih] <;> simp

@[simp]
theorem steps_registerStep (step : SagaStep) (entry : Entry) :
    (st.registerStep step entry).steps = entry.steps ++ [step] := by
  unfold registerStep persistLocked
  split <;> rfl

theorem handle_compensate (entry : Entry) : (st.tracker.handle entry .compensate).2 =
    (entry.steps.filterMap compensationOf).reverse := by
  simp [tracker, compensate, compensateLoop_made]

theorem run_registerStep (steps : List SagaStep) (entry : Entry) :
    (st.tracker.run entry (steps.map Op.registerStep)).1.steps = entry.steps ++ steps ∧
      (st.tracker.run entry (steps.map Op.registerStep)).2 = [] := by
  induction steps generalizing entry with
  | nil => simp
  | cons step steps ih =>
    obtain ⟨kept, silent⟩ := ih (st.registerStep step entry)
    exact ⟨by simpa [tracker] using kept, by simpa [tracker] using silent⟩

theorem run_compensate (steps : List SagaStep) {entry : Entry} (fresh : entry.steps = []) :
    (st.tracker.run entry (steps.map Op.registerStep ++ [Op.compensate])).2 =
      (steps.filterMap compensationOf).reverse := by
  obtain ⟨kept, silent⟩ := st.run_registerStep steps entry
  rw [Component.run_append, silent]
  simp [handle_compensate, kept, fresh]

theorem run_clear (steps : List SagaStep) (entry : Entry) :
    (st.tracker.run entry (steps.map Op.registerStep ++ [Op.clear])).2 = [] := by
  obtain ⟨-, silent⟩ := st.run_registerStep steps entry
  rw [Component.run_append, silent]
  rfl

end SagaTracker

end FlowRulZ.Saga
