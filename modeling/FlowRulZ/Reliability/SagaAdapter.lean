import FlowRulZ.Lib.Component
import Mathlib.Data.List.Nodup

/-! # The saga adapter

`SagaPkgAdapter` executes the steps of a saga by their names.  Of what it has executed it keeps one number, how far
the last step is in the list.  Each saga that was begun is by itself here.
-/

namespace FlowRulZ.SagaAdapter

open List

/-- A step; some have no `Compensate`. -/
structure Step where
  name : String
  compensates : Bool
  deriving Repr, DecidableEq

structure Instance where
  steps : List Step
  stepIdx : Nat := 0

namespace Instance

/-- `ExecuteStep`: the step that was executed or the error, if the step's own function has this error or none. -/
def executeStep (si : Instance) (stepName : String) (err : Option String) : Instance × Except String Step :=
  match si.steps.find? (·.name = stepName) with
  | none => (si, .error s!"saga: step {stepName} not found")
  | some s =>
    let i := si.steps.idxOf s
    if i < si.stepIdx then (si, .error s!"saga: step {stepName} already executed")
    else
      match err with
      | some err => (si, .error err)
      | none => ({ si with stepIdx := i + 1 }, .ok s)

/-- `Compensate`: the steps whose compensations are called, each with its error or none, and the errors. -/
def compensate (si : Instance) (err : Step → Option String) : Instance × List Step × List String :=
  let called := (si.steps.take si.stepIdx).reverse.filter (·.compensates)
  ({ si with stepIdx := 0 }, called, called.filterMap fun s => (err s).map fun e => s!"compensate {s.name}: {e}")

/-- `Status`: the state and the completed steps. -/
def status (si : Instance) : String × List String :=
  (if si.steps.length ≤ si.stepIdx then "completed" else "active", (si.steps.take si.stepIdx).map (·.name))

/-- Calls of `ExecuteStep`, each with what the step's function returns; the steps that are executed are shown. -/
def calls : Component Instance (String × Option String) Step where
  handle si call :=
    let (si', result) := si.executeStep call.1 call.2
    (si', result.toOption.toList)

/-- The number says how far the last executed step is. -/
def Last (steps executed : List Step) (si : Instance) : Prop :=
  si.steps = steps ∧ (∀ s ∈ executed, s ∈ steps) ∧ (executed = [] ∧ si.stepIdx = 0 ∨
    ∃ before s, executed = before ++ [s] ∧ si.stepIdx = steps.idxOf s + 1)

theorem last_run {steps : List Step} (events : List (String × Option String)) :
    ∀ {executed si}, Last steps executed si →
      Last steps (executed ++ (calls.run si events).2) (calls.after si events) := by
  induction events with
  | nil =>
    intro executed si last
    rwa [Component.run_nil, append_nil]
  | cons call events ih =>
    intro executed si last
    rw [Component.run_cons, ← append_assoc]
    apply ih
    have still : Last steps (executed ++ []) si := by rwa [append_nil]
    obtain ⟨rfl, known, -⟩ := last
    dsimp only [calls, executeStep]
    split
    · exact still
    · rename_i s found
      split_ifs
      · exact still
      · cases call.2 with
        | some err => exact still
        | none =>
          have there := forall_mem_singleton.mpr (mem_of_find?_eq_some found)
          exact ⟨rfl, forall_mem_append.mpr ⟨known, there⟩, .inr ⟨executed, s, rfl, rfl⟩⟩

/-- The executed steps, and only they, are compensated and completed if and only if they are the first ones of the list
and in its order. -/
theorem compensate_executed (steps : List Step) (distinct : (steps.map (·.name)).Nodup)
    (events : List (String × Option String)) (err : Step → Option String) :
    let executed := (calls.run { steps } events).2
    let si := calls.after { steps } events
    (si.compensate err).2.1 = executed.reverse.filter (·.compensates) ∧ si.status.2 = executed.map (·.name) ↔
      executed <+: steps := by
  intro executed si
  obtain ⟨same, known, last⟩ : Last steps executed si := last_run events ⟨rfl, forall_mem_nil _, .inl ⟨rfl, rfl⟩⟩
  rw [compensate, status, same]
  constructor
  · rintro ⟨-, names⟩
    have length : (steps.take si.stepIdx).length = executed.length := by simpa using congrArg List.length names
    have taken : steps.take si.stepIdx = executed := by
      refine List.ext_getElem length fun i inside inside' => ?_
      have name := congrArg (·[i]?) names
      simp only [getElem?_map, getElem?_eq_getElem inside, getElem?_eq_getElem inside', Option.map_some,
        Option.some.injEq] at name
      exact inj_on_of_nodup_map distinct (mem_of_mem_take (getElem_mem inside)) (known _ (getElem_mem inside')) name
    exact taken ▸ take_prefix _ _
  · rintro ⟨rest, whole⟩
    suffices taken : steps.take si.stepIdx = executed by
      rw [taken]
      exact ⟨rfl, rfl⟩
    rcases last with ⟨none, zero⟩ | ⟨before, s, ends, place⟩
    · rw [zero, none, take_zero]
    · have single : steps.Nodup := distinct.of_map
      rw [ends, append_assoc] at whole
      have apart : s ∉ before := by
        rw [← whole] at single
        exact fun again => (nodup_append.mp single).2.2 s again s mem_cons_self rfl
      rw [place, ends, ← whole, idxOf_append_of_notMem apart, singleton_append, idxOf_cons_self,
        Nat.add_zero, take_length_add_append]
      rfl

theorem compensate_executed_two : let steps : List Step := [⟨"a", true⟩, ⟨"b", true⟩, ⟨"c", true⟩]
    let si := calls.after { steps } [("a", none), ("a", none), ("b", some "down"), ("b", none)]
    (si.compensate fun _ => none).2.1 = [⟨"b", true⟩, ⟨"a", true⟩] :=
  ((compensate_executed [⟨"a", true⟩, ⟨"b", true⟩, ⟨"c", true⟩] (by decide)
    [("a", none), ("a", none), ("b", some "down"), ("b", none)] fun _ => none).mpr (by decide)).1

/-- A step that is passed over is compensated. -/
theorem compensate_skipped : let si := calls.after { steps := [⟨"a", true⟩, ⟨"b", true⟩] } [("b", none)]
    (calls.run { steps := [⟨"a", true⟩, ⟨"b", true⟩] } [("b", none)]).2 = [⟨"b", true⟩] ∧ si.status.2 = ["a", "b"] ∧
      (si.compensate fun _ => none).2.1 = [⟨"b", true⟩, ⟨"a", true⟩] := by
  decide

end Instance

end FlowRulZ.SagaAdapter
