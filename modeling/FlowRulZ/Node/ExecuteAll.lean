import FlowRulZ.Bytecode.Plan
import FlowRulZ.Lib.Component
import FlowRulZ.Lib.Table
import Mathlib.Data.List.Perm.Subperm

/-! # Executing all plans on a message

`executeAll` starts a goroutine for every active plan and then collects as many results.  Each
goroutine hands a task to the scheduler and waits for its result or for the end of the
context.  Which task a worker of the scheduler takes and what a plan returns is open, and
goroutines outlive a call that gives up before it has started all of them.
-/

namespace FlowRulZ.Messages

open List

/-- `ctx.Err()`. -/
inductive CtxErr where
  | canceled
  | deadlineExceeded
  deriving Repr, DecidableEq

def CtxErr.text : CtxErr → String
  | .canceled => "context canceled"
  | .deadlineExceeded => "context deadline exceeded"

inductive EnqueueError where
  | queueFull
  | unknownPriority
  deriving Repr, DecidableEq

def EnqueueError.text : EnqueueError → String
  | .queueFull => "scheduler: queue full"
  | .unknownPriority => "scheduler: unknown priority"

inductive PlanOutcome where
  | ok (out : Bytes)
  | error (e : String)
  | panic (value : String)
  deriving Repr, DecidableEq

def PlanOutcome.result : PlanOutcome → Except String Bytes
  | .ok out => .ok out
  | .error e => .error e
  | .panic value => .error s!"task panicked: {value}"

inductive TaskStage where
  | new
  | queued
  | running
  | over (outcome : PlanOutcome)
  deriving Repr, DecidableEq

inductive Waiting where
  | enqueueing
  /-- In the select of `EnqueueAndWait`. -/
  | selecting
  /-- It has put its result into the channel of `executeAll`. -/
  | reported
  deriving Repr, DecidableEq

structure PlanRun where
  waiting : Waiting := .enqueueing
  task : TaskStage := .new
  resultCh : Option (Except String Bytes) := none
  deriving Repr, DecidableEq

inductive RunEvent where
  | enqueue
  | refuse (e : EnqueueError)
  | pick
  | complete (outcome : PlanOutcome)
  | receive
  | giveUp (e : CtxErr)
  deriving Repr, DecidableEq

def PlanRun.step (run : PlanRun) : RunEvent → PlanRun × Option (Except String Bytes)
  | .enqueue =>
    if run.waiting = .enqueueing then ({ run with waiting := .selecting, task := .queued }, none) else (run, none)
  | .refuse e =>
    if run.waiting = .enqueueing then ({ run with waiting := .reported }, some (.error e.text)) else (run, none)
  | .pick => if run.task = .queued then ({ run with task := .running }, none) else (run, none)
  | .complete outcome =>
    if run.task = .running then ({ run with task := .over outcome, resultCh := some outcome.result }, none)
    else (run, none)
  | .receive =>
    if run.waiting = .selecting then
      match run.resultCh with
      | some result => ({ run with waiting := .reported, resultCh := none }, some result)
      | none => (run, none)
    else (run, none)
  | .giveUp e =>
    if run.waiting = .selecting then ({ run with waiting := .reported }, some (.error e.text)) else (run, none)

structure Exec where
  plans : Nat
  /-- The goroutines that are started, by the index of their plan. -/
  runs : List PlanRun := []
  ch : List (Nat × Except String Bytes) := []
  results : List Bytes
  received : Nat := 0
  firstErr : Option String := none
  returned : Option (Except String (List Bytes)) := none
  deriving Repr, DecidableEq

/-- `executeAll` up to its first loop. -/
def executeAll (plans : Nat) (available : Bool) : Exec :=
  let call : Exec := { plans, results := List.replicate plans [] }
  if plans = 0 then { call with returned := some (.ok []) }
  else if !available then { call with returned := some (.error "scheduler not available") }
  else call

inductive ExecEvent where
  /-- There is a place in the semaphore. -/
  | acquire
  | abandon (e : CtxErr)
  | run (j : Nat) (event : RunEvent)
  | collect
  | finish
  deriving Repr, DecidableEq

namespace Exec

variable (e : Exec)

def collected (j : Nat) : Except String Bytes → Exec
  | .ok out => { e with received := e.received + 1, results := e.results.set j out }
  | .error err => { e with received := e.received + 1, firstErr := e.firstErr.or (some err) }

def step : ExecEvent → Exec
  | .acquire =>
    if e.returned = none ∧ e.runs.length < e.plans then { e with runs := e.runs ++ [{}] } else e
  | .abandon err =>
    if e.returned = none ∧ e.runs.length < e.plans then { e with returned := some (.error err.text) } else e
  | .run j event =>
    match e.runs[j]? with
    | some run =>
      let (run, report) := run.step event
      { e with runs := e.runs.set j run, ch := e.ch ++ (report.map (j, ·)).toList }
    | none => e
  | .collect =>
    if e.returned = none ∧ e.runs.length = e.plans ∧ e.received < e.plans then
      match e.ch with
      | (j, result) :: ch => collected { e with ch } j result
      | [] => e
    else e
  | .finish =>
    if e.returned = none ∧ e.runs.length = e.plans ∧ e.received = e.plans then
      { e with returned := some (match e.firstErr with | none => .ok e.results | some err => .error err) }
    else e

def component : Component Exec ExecEvent Unit where
  handle e event := (e.step event, [])

end Exec

namespace PlanRun

structure Sound (run : PlanRun) : Prop where
  fresh : run.waiting = .enqueueing → run.task = .new
  channel : ∀ result, run.resultCh = some result → ∃ outcome, run.task = .over outcome ∧ result = outcome.result

structure Reports (run : PlanRun) (result : Except String Bytes) : Prop where
  reported : run.waiting = .reported
  genuine : ∀ out, result = .ok out → run.task = .over (.ok out)

variable {run : PlanRun}

theorem result_eq_ok {outcome : PlanOutcome} {out : Bytes} (same : outcome.result = .ok out) : outcome = .ok out := by
  cases outcome <;> cases same
  rfl

theorem sound_step (sound : run.Sound) (event : RunEvent) : (run.step event).1.Sound := by
  obtain ⟨fresh, channel⟩ := sound
  cases event <;> constructor <;> grind [step]

theorem reports_step {result : Except String Bytes} (reports : run.Reports result) (event : RunEvent) :
    (run.step event).1.Reports result ∧ (run.step event).2 = none := by
  obtain ⟨reported, genuine⟩ := reports
  refine ⟨⟨?_, ?_⟩, ?_⟩ <;> cases event <;> grind [step]

theorem reports_of_step {result : Except String Bytes} {event : RunEvent} (sound : run.Sound)
    (report : (run.step event).2 = some result) :
    (run.step event).1.Reports result ∧ run.waiting ≠ .reported := by
  have channel := sound.channel
  refine ⟨⟨?_, fun out same => ?_⟩, ?_⟩
  · cases event <;> grind [step]
  · cases event <;> grind [step, result_eq_ok]
  · cases event <;> grind [step]

end PlanRun

namespace Exec

structure Tally (e : Exec) (done : List (Nat × Except String Bytes)) : Prop where
  sound : ∀ (j : Nat) run, e.runs[j]? = some run → run.Sound
  length : e.results.length = e.plans
  few : e.runs.length ≤ e.plans
  distinct : ((done ++ e.ch).map Prod.fst).Nodup
  reported : ∀ j result, (j, result) ∈ done ++ e.ch → ∃ run, e.runs[j]? = some run ∧ run.Reports result
  received : e.received = done.length
  stored : e.firstErr = none → ∀ j result, (j, result) ∈ done → ∃ out, result = .ok out ∧ e.results[j]? = some out
  returned : ∀ results, e.returned = some (.ok results) →
    results = e.results ∧ e.runs.length = e.plans ∧ e.received = e.plans ∧ e.firstErr = none

variable {e : Exec} {done : List (Nat × Except String Bytes)}

theorem returned_step {result : Except String (List Bytes)} (returned : e.returned = some result)
    (event : ExecEvent) : (e.step event).returned = some result := by
  cases event with
  | acquire | abandon | collect | finish => simp [step, returned]
  | run j event =>
    simp only [step]
    split <;> exact returned

theorem tally_start (plans : Nat) (available : Bool) : (executeAll plans available).Tally [] := by
  have fresh (returned : Option (Except String (List Bytes)))
      (none : ∀ results, returned = some (.ok results) → plans = 0 ∧ results = []) :
      Tally { plans, results := List.replicate plans [], returned } [] := by
    refine ⟨nofun, by simp, by simp, by simp, nofun, rfl, nofun, ?_⟩
    intro results same
    obtain ⟨rfl, rfl⟩ := none results same
    exact ⟨rfl, rfl, rfl, rfl⟩
  simp only [executeAll]
  split
  next none => exact fresh _ (by simp [none])
  next =>
    split
    · exact fresh _ nofun
    · exact fresh _ nofun

section

variable (tally : e.Tally done)
include tally

theorem tally_acquire (room : e.runs.length < e.plans) : Tally { e with runs := e.runs ++ [{}] } done := by
  refine ⟨?_, tally.length, by simpa using Nat.succ_le_of_lt room, tally.distinct, ?_, tally.received, tally.stored, ?_⟩
  · intro j run there
    rcases Table.of_concat there with old | ⟨-, rfl⟩
    · exact tally.sound j run old
    · exact ⟨fun _ => rfl, nofun⟩
  · intro j result member
    obtain ⟨run, there, reports⟩ := tally.reported j result member
    exact ⟨run, Table.append_left there, reports⟩
  · intro results same
    have full := (tally.returned results same).2.1
    omega

theorem tally_run {j : Nat} {run : PlanRun} (here : e.runs[j]? = some run) (event : RunEvent) :
    Tally { e with
      runs := e.runs.set j (run.step event).1
      ch := e.ch ++ ((run.step event).2.map (j, ·)).toList } done := by
  -- What was reported before is not touched.
  have kept (k : Nat) (result : Except String Bytes) (member : (k, result) ∈ done ++ e.ch) :
      ∃ run', (e.runs.set j (run.step event).1)[k]? = some run' ∧ run'.Reports result := by
    obtain ⟨run', there, reports⟩ := tally.reported k result member
    rcases Table.after_set here there with ⟨rfl, rfl, now⟩ | ⟨-, now⟩
    · exact ⟨_, now _, (PlanRun.reports_step reports event).1⟩
    · exact ⟨run', now _, reports⟩
  refine ⟨?_, tally.length, by simpa using tally.few, ?_, ?_, tally.received, tally.stored, by simpa using tally.returned⟩
  · intro k run' there
    rcases Table.of_set there with ⟨rfl, rfl⟩ | ⟨-, old⟩
    · exact PlanRun.sound_step (tally.sound k run here) event
    · exact tally.sound k run' old
  · cases report : (run.step event).2 with
    | none => simpa using tally.distinct
    | some result =>
      have unreported := (PlanRun.reports_of_step (tally.sound j run here) report).2
      have new : j ∉ (done ++ e.ch).map Prod.fst := by
        simp only [mem_map, not_exists, not_and]
        rintro ⟨k, result'⟩ member rfl
        obtain ⟨run', there, reports⟩ := tally.reported k result' member
        rw [here] at there
        cases there
        exact unreported reports.reported
      simpa using tally.distinct.concat new
  · intro k result member
    rw [← append_assoc, mem_append] at member
    rcases member with old | new
    · exact kept k result old
    · cases report : (run.step event).2 with
      | none => simp [report] at new
      | some result' =>
        simp only [report, Option.map_some, Option.toList_some, mem_singleton, Prod.mk.injEq] at new
        obtain ⟨rfl, rfl⟩ := new
        exact ⟨_, Table.set_self here, (PlanRun.reports_of_step (tally.sound k run here) report).1⟩

theorem tally_collect {j : Nat} {result : Except String Bytes} {ch : List (Nat × Except String Bytes)}
    (waiting : e.returned = none) (next : e.ch = (j, result) :: ch) :
    Tally (collected { e with ch } j result) (done ++ [(j, result)]) := by
  have same : done ++ [(j, result)] ++ ch = done ++ e.ch := by simp [next]
  obtain ⟨run, there, -⟩ := tally.reported j result (by simp [next])
  have inside : j < e.results.length := by
    have started := Table.lt_length there
    have := tally.few
    have := tally.length
    omega
  have earlier (k : Nat) (r : Except String Bytes) (member : (k, r) ∈ done) : j ≠ k := by
    rintro rfl
    have distinct := tally.distinct
    simp only [next, map_append, nodup_append] at distinct
    exact distinct.2.2 j (mem_map_of_mem member) j mem_cons_self rfl
  cases result with
  | ok out =>
    refine ⟨tally.sound, by simpa [collected] using tally.length, tally.few, same ▸ tally.distinct,
      same ▸ tally.reported, by simp [collected, tally.received], ?_, by simp [collected, waiting]⟩
    intro none k r member
    rcases mem_append.mp member with old | new
    · obtain ⟨out', rfl, there⟩ := tally.stored none k r old
      exact ⟨out', rfl, by simp only [collected, getElem?_set_ne (earlier k _ old), there]⟩
    · cases mem_singleton.mp new
      exact ⟨out, rfl, getElem?_set_self inside⟩
  | error err =>
    refine ⟨tally.sound, tally.length, tally.few, same ▸ tally.distinct, same ▸ tally.reported,
      by simp [collected, tally.received], ?_, by simp [collected, waiting]⟩
    intro none
    simp [collected] at none

theorem tally_step (event : ExecEvent) : ∃ done, (e.step event).Tally done := by
  cases event with
  | acquire =>
    simp only [step]
    split
    next room => exact ⟨done, tally_acquire tally room.2⟩
    next => exact ⟨done, tally⟩
  | abandon err =>
    simp only [step]
    split
    · exact ⟨done, tally.sound, tally.length, tally.few, tally.distinct, tally.reported, tally.received,
        tally.stored, nofun⟩
    · exact ⟨done, tally⟩
  | run j event =>
    simp only [step]
    split
    next run here => exact ⟨done, tally_run tally here event⟩
    next => exact ⟨done, tally⟩
  | collect =>
    simp only [step]
    split
    next still =>
      split
      next j result ch next => exact ⟨_, tally_collect tally still.1 next⟩
      next => exact ⟨done, tally⟩
    next => exact ⟨done, tally⟩
  | finish =>
    simp only [step]
    split
    next full =>
      refine ⟨done, tally.sound, tally.length, tally.few, tally.distinct, tally.reported, tally.received,
        tally.stored, ?_⟩
      intro results same
      cases first : e.firstErr with
      | none =>
        simp only [first, Option.some.injEq, Except.ok.injEq] at same
        exact ⟨same.symm, full.2.1, full.2.2, rfl⟩
      | some err => simp [first] at same
    next => exact ⟨done, tally⟩

theorem Tally.all_done (started : e.runs.length = e.plans) (received : e.received = e.plans)
    (j : Nat) (planned : j < e.plans) : ∃ result, (j, result) ∈ done := by
  have distinct : (done.map Prod.fst).Nodup :=
    tally.distinct.sublist ((sublist_append_left done e.ch).map Prod.fst)
  have within : done.map Prod.fst ⊆ List.range e.plans := by
    intro k member
    obtain ⟨⟨_, result⟩, collected, rfl⟩ := mem_map.mp member
    obtain ⟨run, there, -⟩ := tally.reported _ result (mem_append_left _ collected)
    exact List.mem_range.mpr (started ▸ Table.lt_length there)
  have all : (done.map Prod.fst).Perm (List.range e.plans) := by
    refine (distinct.subperm within).perm_of_length_le ?_
    rw [length_range, length_map, ← tally.received, received]
  obtain ⟨⟨_, result⟩, member, rfl⟩ := mem_map.mp (all.mem_iff.mpr (mem_range.mpr planned))
  exact ⟨result, member⟩

end

/-- If `executeAll` returns without an error, then every plan has, and the results are theirs. -/
theorem Tally.succeeded (tally : e.Tally done) {results : List Bytes} (returned : e.returned = some (.ok results))
    (j : Nat) (planned : j < results.length) :
    ∃ run out, e.runs[j]? = some run ∧ run.task = .over (.ok out) ∧ results[j]? = some out := by
  obtain ⟨rfl, started, received, none⟩ := tally.returned results returned
  rw [tally.length] at planned
  obtain ⟨result, member⟩ := tally.all_done started received j planned
  obtain ⟨out, rfl, stored⟩ := tally.stored none j result member
  obtain ⟨run, there, reports⟩ := tally.reported j _ (mem_append_left _ member)
  exact ⟨run, out, there, reports.genuine out rfl, stored⟩

end Exec

end FlowRulZ.Messages
