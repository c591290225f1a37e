import FlowRulZ.Node.Production

/-! # The simulator

`executeBridge` steps a plan at most a hundred times.  It knows three codes of a step, and leaves the response as it
was for any other.
-/

namespace FlowRulZ

open List Node

structure Simulator where
  wire : Wire
  host : Host
  scheduler : Scheduler
  serviceNames : UInt16 → Option String
  services : String → Bool
  /-- What a service says to the call of a step, or why there is no answer; a body can be nil. -/
  callService : Nat → String → Bytes → Except String (Option Bytes)
  /-- `stopCh` is closed before a step. -/
  stopped : Nat → Bool

namespace Simulator

inductive Turn where
  | finished (result : Except String Bytes)
  | answered (ctxBytes : Bytes) (body : Option Bytes)
  | continued (ctxBytes : Bytes)
  /-- The switch has no case for the code of the step. -/
  | ignored (ctxBytes : Bytes)
  deriving Repr, DecidableEq

variable (sim : Simulator) (plan : Bytes)

/-- The call that a step asks for. -/
def call (step : Nat) (out : StepOutput) : Except String (Option Bytes) :=
  let svcName := (parseServiceMethod (rawName sim.serviceNames out.pendingSvc)).1
  if !sim.services svcName then .error s!"unknown service: {svcName}"
  else sim.callService step svcName out.pendingBody

def turn (step : Nat) (ctxBytes : Bytes) (respBytes : Option Bytes) : Turn :=
  if sim.stopped step then .finished (.error "scheduler stopped")
  else
    match executeStep sim.wire sim.host sim.scheduler none plan ctxBytes respBytes with
    | .error e => .finished (.error s!"step {step}: {e}")
    -- `out.Error` is read with two codes only, and no text is ever written for them
    | .ok out =>
      if out.result = 0 then .finished (.ok out.output)
      else if out.result = 1 then
        match sim.call step out with
        | .error e => .finished (.error e)
        | .ok body => .answered out.ctxBytes body
      else if out.result = 2 then .continued out.ctxBytes
      else .ignored out.ctxBytes

/-- The loop with some steps to go: its turns, each with the response it is given. -/
def loop : Nat → Bytes → Option Bytes → List (Option Bytes × Turn)
  | 0, _, _ => []
  | left + 1, ctxBytes, respBytes =>
    let now := sim.turn plan (100 - (left + 1)) ctxBytes respBytes
    (respBytes, now) ::
      match now with
      | .finished _ => []
      | .answered ctxBytes body => loop left ctxBytes body
      | .continued ctxBytes => loop left ctxBytes none
      | .ignored ctxBytes => loop left ctxBytes respBytes

/-- `bridge.InitContext` cuts a context that is too long. -/
def initContext (body : Bytes) : Bytes := (sim.wire.ctxBytes (.fromBody body)).take StepOutput.bufferSize

def executeBridge (body : Bytes) : List (Option Bytes × Turn) :=
  sim.loop plan 100 (if body.isEmpty then [] else sim.initContext body) none

def executeContext (id : String) (body : Bytes) : List (Option Bytes × Turn) :=
  if plan.isEmpty then [(none, .finished (.error s!"plan {id} has no compiled bytecode — deploy via DSL first"))]
  else sim.executeBridge plan body

def results (turns : List (Option Bytes × Turn)) : List (Except String Bytes) :=
  turns.filterMap fun entry => match entry.2 with
    | .finished result => some result
    | _ => none

def Turn.response : Turn → Option Bytes
  | .answered _ body => body
  | _ => none

/-- Every turn but the first is given what the turn before it has asked for. -/
def Fed (turns : List (Option Bytes × Turn)) : Prop := turns.IsChain fun before entry => entry.1 = before.2.response

/-- What a step is given: its context, if that could be read, and a response. -/
abbrev Given := Option ExecutionContext × Option Bytes

section

variable (plan : ExecutionPlan)

def planStep : Given → StepOutput
  | (none, _) => .failed .deserialize
  | (some ctx, resp) => .ofStep sim.wire (VM.step ⟨sim.host, sim.scheduler, plan, bridgeCaller none⟩ resp { ctx := ctx })

/-- The next step is given what this one has asked for, and no response if it has not asked. -/
def next (step : Nat) (given : Given) : Option Given :=
  let out := sim.planStep plan given
  if sim.stopped step || out.result = 0 then none
  else if out.result = 1 then (sim.call step out).toOption.map fun body => (sim.wire.context out.ctxBytes, body)
  else some (sim.wire.context out.ctxBytes, none)

/-- The steps that the plan needs for a body, by their numbers. -/
def course (body : Bytes) : Nat → Option Given
  | 0 => some (sim.wire.context (if body.isEmpty then [] else sim.initContext body), none)
  | n + 1 => (course body n).bind (sim.next plan n)

/-- The code of a step is done, pending or continue, or the step is not made any more. -/
def Known (n : Nat) (given : Given) : Prop := sim.stopped n = true ∨ (sim.planStep plan given).result ∈ [0, 1, 2]

/-- If a step is given a response, its code is known. -/
def Heeds (body : Bytes) (n : Nat) : Prop :=
  ∀ given ∈ sim.course plan body n, given.2 ≠ none → sim.Known plan n given

instance (body : Bytes) : DecidablePred (sim.Heeds plan body) := fun n =>
  inferInstanceAs (Decidable (∀ given ∈ sim.course plan body n, given.2 ≠ none →
    sim.stopped n = true ∨ (sim.planStep plan given).result ∈ [0, 1, 2]))

end

variable {sim plan} {ctxBytes : Bytes} {respBytes : Option Bytes}

theorem fed_cons (first : Option Bytes × Turn) (left : Nat) : Fed (first :: sim.loop plan left ctxBytes respBytes) ↔
    (left ≠ 0 → respBytes = first.2.response) ∧ Fed (sim.loop plan left ctxBytes respBytes) := by
  cases left with
  | zero => simp [loop, Fed]
  | succ left =>
    rw [loop, Fed]
    simp [Fed]

section

variable {p : ExecutionPlan} (stored : sim.wire.readPlan plan = some p) (version : p.version = bytecodeVersion)
include stored version

/-- The loop goes on as it should, but an ignored turn keeps its response. -/
theorem turn_next (ctxBytes : Bytes) (respBytes : Option Bytes) (n : Nat) : let given := (sim.wire.context ctxBytes, respBytes)
    match sim.turn plan n ctxBytes respBytes with
    | .finished _ => sim.next p n given = none ∧ sim.Known p n given
    | .answered ctx body => sim.next p n given = some (sim.wire.context ctx, body) ∧ sim.Known p n given
    | .continued ctx => sim.next p n given = some (sim.wire.context ctx, none) ∧ sim.Known p n given
    | .ignored ctx => sim.next p n given = some (sim.wire.context ctx, none) ∧ ¬ sim.Known p n given := by
  intro given
  have nonempty : plan.isEmpty = false := by
    cases plan with
    | nil => simp [sim.wire.readPlan_nil] at stored
    | cons => rfl
  have step : executeStep sim.wire sim.host sim.scheduler none plan ctxBytes respBytes =
      .ok (sim.planStep p given) := by
    simp only [given, executeStep, flowrulzExecuteStep, nonempty, stored, version]
    cases sim.wire.context ctxBytes <;> rfl
  unfold turn next Known
  rw [step]
  generalize sim.planStep p given = out
  grind [Except.toOption]

theorem loop_answers_iff {body : Bytes} (left : Nat) : ∀ {k ctxBytes respBytes}, k + left = 100 →
    sim.course p body k = some (sim.wire.context ctxBytes, respBytes) →
    ((results (sim.loop plan left ctxBytes respBytes)).length = 1 ∧ Fed (sim.loop plan left ctxBytes respBytes) ↔
      sim.course p body 100 = none ∧ ∀ n < 100, k ≤ n → sim.Heeds p body n) := by
  induction left with
  | zero =>
    rintro k ctxBytes respBytes rfl here
    simp [loop, results, here]
  | succ left ih =>
    intro k ctxBytes respBytes total here
    have number : 100 - (left + 1) = k := by omega
    have step := turn_next stored version ctxBytes respBytes k
    have later : sim.course p body (k + 1) = sim.next p k (sim.wire.context ctxBytes, respBytes) := by
      rw [course, here, Option.bind_some]
    have heeds : (∀ n < 100, k ≤ n → sim.Heeds p body n) ↔
        (respBytes ≠ none → sim.Known p k (sim.wire.context ctxBytes, respBytes)) ∧
          ∀ n < 100, k + 1 ≤ n → sim.Heeds p body n := by
      have now : sim.Heeds p body k ↔ (respBytes ≠ none → sim.Known p k (sim.wire.context ctxBytes, respBytes)) := by
        simp [Heeds, here]
      rw [← now]
      grind
    rw [loop, number, heeds]
    cases turned : sim.turn plan k ctxBytes respBytes with
    | finished result =>
      rw [turned] at step
      have ended : ∀ n, k + 1 ≤ n → sim.course p body n = none := by
        intro n le
        induction n, le using Nat.le_induction with
        | base => rw [later, step.1]
        | succ n _ ih => rw [course, ih, Option.bind_none]
      refine iff_of_true ⟨rfl, by simp [Fed]⟩ ⟨ended 100 (by omega), fun _ => step.2, fun n _ le given there => ?_⟩
      rw [ended n le] at there
      cases there
    | answered | continued =>
      rw [turned] at step
      rw [fed_cons]
      have rest := ih (by omega) (later.trans step.1)
      simp_all [results, Turn.response]
    | ignored ctx =>
      rw [turned] at step
      rw [fed_cons]
      cases respBytes with
      | none =>
        have rest := ih (by omega) (later.trans step.1)
        simp_all [results, Turn.response]
      | some resp =>
        refine iff_of_false ?_ fun met => step.2 (met.2.1 nofun)
        rintro ⟨once, again, -⟩
        -- without another turn there is no result, and another turn is given the response once more
        cases left with
        | zero => cases once
        | succ left => cases again (Nat.succ_ne_zero left)

end

/-- Exactly one result is sent and no response is given to a turn that did not ask for it, exactly if the plan needs at
most a hundred steps and none that is given a response has a code other than done, pending and continue. -/
theorem executeContext_answers_iff (sim : Simulator) {bytes : Bytes} {plan : ExecutionPlan}
    (stored : sim.wire.readPlan bytes = some plan) (version : plan.version = bytecodeVersion) (id : String)
    (body : Bytes) :
    (results (sim.executeContext bytes id body)).length = 1 ∧ Fed (sim.executeContext bytes id body) ↔
      sim.course plan body 100 = none ∧ ∀ n < 100, sim.Heeds plan body n := by
  unfold executeContext
  split
  · rename_i empty
    rw [isEmpty_iff.mp empty, sim.wire.readPlan_nil] at stored
    cases stored
  · rw [executeBridge, loop_answers_iff stored version 100 (Nat.zero_add 100) rfl]
    simp

/-- A simulator of one plan, whose services answer with the numbers of the steps. -/
def simulating (nodes : List ASTNode) : Simulator where
  wire := wireOf (Compiler.ascii.planOf nodes "r")
  host := .mute
  scheduler := .inOrder
  serviceNames := nameMap (Compiler.ascii.planOf nodes "r").services.rows
  services _ := true
  callService step _ _ := .ok (some [.ofNat step])
  stopped _ := false

theorem answers_chain :
    let sim := simulating [.delay 5, .next "a", .next "b"]
    (results (sim.executeContext [0] "r" [7])).length = 1 ∧ Fed (sim.executeContext [0] "r" [7]) :=
  (executeContext_answers_iff (simulating [.delay 5, .next "a", .next "b"]) rfl rfl "r" [7]).mpr
    ⟨by decide +kernel, by decide +kernel⟩

def delayed : Simulator := simulating [.next "a", .delay 5, .next "b"]

/-- The answer of `a` is given once more after the delay, and `b` is never called. -/
theorem answer_given_twice : (delayed.executeContext [0] "r" [7]).map (fun entry => (entry.1, entry.2.response)) =
    [(none, some [0]), (some [0], none), (some [0], none)] ∧
    results (delayed.executeContext [0] "r" [7]) = [.ok [0]] ∧ ¬ Fed (delayed.executeContext [0] "r" [7]) := by
  unfold Fed
  decide +kernel

end Simulator

end FlowRulZ
