import FlowRulZ.Node.ExecuteAll
import Mathlib.Algebra.BigOperators.Group.List.Basic

/-! # Slots of concurrent executions

All calls of `executeAll` share one semaphore.  A goroutine is started with a slot and returns
it when it ends, which may be after its call has returned.  A wait is given up only when the
context of the call has ended: with the caller's, on the first error or when the call returns.
-/

namespace FlowRulZ.Messages

open List

/-- A call with its caller's context and, for each of its goroutines, whether it has ended. -/
structure Running where
  exec : Exec
  ended : Option CtxErr := none
  finished : List Bool := []

/-- `execSem` and all calls. -/
structure Slots where
  capacity : Nat
  occupied : Nat := 0
  calls : List Running := []

inductive SlotEvent where
  | call (plans : Nat) (available : Bool)
  | endContext (i : Nat) (err : CtxErr)
  | step (i : Nat) (event : ExecEvent)
  | release (i j : Nat)

namespace Running

variable (r : Running)

def done (err : CtxErr) : Bool :=
  r.ended = some err || err = .canceled && (r.exec.firstErr.isSome || r.exec.returned.isSome)

/-- The step does not wait for a slot or for the end of the context. -/
def ready (free : Bool) : ExecEvent → Bool
  | .acquire => free
  | .abandon err | .run _ (.giveUp err) => r.done err
  | _ => true

def started (event : ExecEvent) : Nat := (r.exec.step event).runs.length - r.exec.runs.length

def act (event : ExecEvent) : Running :=
  { r with exec := r.exec.step event, finished := r.finished ++ List.replicate (r.started event) false }

end Running

namespace Slots

def endContext (s : Slots) (i : Nat) (err : CtxErr) : Slots :=
  match s.calls[i]? with
  | none => s
  | some r => { s with calls := s.calls.set i { r with ended := r.ended.or (some err) } }

def release (s : Slots) (i j : Nat) : Slots :=
  match s.calls[i]? with
  | none => s
  | some r =>
    if (r.exec.runs[j]?.map (·.waiting)) = some .reported ∧ r.finished[j]? = some false ∧ 0 < s.occupied then
      { s with occupied := s.occupied - 1, calls := s.calls.set i { r with finished := r.finished.set j true } }
    else s

def step (s : Slots) (i : Nat) (event : ExecEvent) : Slots :=
  match s.calls[i]? with
  | none => s
  | some r =>
    if r.ready (s.occupied < s.capacity) event then
      { s with occupied := s.occupied + r.started event, calls := s.calls.set i (r.act event) }
    else s

def component : Component Slots SlotEvent Unit where
  handle s
    | .call plans available => ({ s with calls := s.calls ++ [{ exec := executeAll plans available }] }, [])
    | .endContext i err => (s.endContext i err, [])
    | .step i event => (s.step i event, [])
    | .release i j => (s.release i j, [])

/-- The goroutines of all calls that have been given a slot and have not ended. -/
def unfinished (s : Slots) : Nat := (s.calls.map fun r => r.finished.count false).sum

end Slots

def PlanRun.Lost (run : PlanRun) : Prop :=
  run.waiting = .reported ∧ run.task = .new ∨ ∃ outcome, run.task = .over outcome ∧ ∀ out, outcome ≠ .ok out

def Exec.Outputs (e : Exec) (outs : List Bytes) : Prop :=
  outs.length = e.plans ∧ ∀ (j : Nat) out, outs[j]? = some out →
    ∃ run : PlanRun, e.runs[j]? = some run ∧ run.task = .over (.ok out)

/-- The result is the outputs of all plans in their order, and an error if a plan was lost; if
all plans succeed, it is an error only if the caller's context ends. -/
structure Running.Answers (r : Running) (result : Except String (List Bytes)) : Prop where
  outputs : ∀ outs, result = .ok outs → r.exec.Outputs outs
  error : (∃ run ∈ r.exec.runs, run.Lost) → ∃ err, result = .error err
  ok : ∀ outs, r.ended = none → r.exec.Outputs outs → result = .ok outs

def Exec.settle (e : Exec) : List ExecEvent := List.replicate (e.plans - e.received) .collect ++ [.finish]

namespace PlanRun

variable {run : PlanRun}

/-- The result of an execution stays in its channel while the goroutine waits. -/
def Kept (run : PlanRun) : Prop :=
  run.waiting = .selecting → ∀ outcome, run.task = .over outcome → run.resultCh = some outcome.result

theorem Kept.step (kept : run.Kept) (event : RunEvent) : (run.step event).1.Kept := by
  unfold Kept at *
  cases event <;> grind [PlanRun.step]

theorem Lost.step (sound : run.Sound) (lost : run.Lost) (event : RunEvent) : (run.step event).1.Lost := by
  have fresh := sound.fresh
  unfold Lost at *
  cases event <;> grind [PlanRun.step]

theorem lost_of_step {err : String} {event : RunEvent} (sound : run.Sound)
    (report : (run.step event).2 = some (.error err)) :
    (run.step event).1.Lost ∨ ∃ e, event = .giveUp e ∧ run.waiting = .selecting := by
  have fresh := sound.fresh
  have channel := sound.channel
  unfold Lost
  cases event <;> grind [PlanRun.step, PlanOutcome.result]

theorem reported_step (run : PlanRun) (event : RunEvent) :
    ((run.step event).1.waiting = .reported ↔ run.waiting = .reported ∨ (run.step event).2.isSome) ∧
      ((run.step event).2.isSome → run.waiting ≠ .reported) := by
  cases event <;> grind [PlanRun.step]

end PlanRun

section

variable (e : Exec) (j : Nat) (result : Except String Bytes)

@[grind =]
theorem Exec.collected_runs : (e.collected j result).runs = e.runs := by cases result <;> rfl

@[grind =]
theorem Exec.collected_plans : (e.collected j result).plans = e.plans := by cases result <;> rfl

@[grind =]
theorem Exec.collected_ch : (e.collected j result).ch = e.ch := by cases result <;> rfl

@[grind =]
theorem Exec.collected_returned : (e.collected j result).returned = e.returned := by cases result <;> rfl

@[grind =]
theorem Exec.collected_received : (e.collected j result).received = e.received + 1 := by cases result <;> rfl

end

namespace Running

def Excuse (r : Running) : Prop :=
  r.ended ≠ none ∨ (∃ run ∈ r.exec.runs, run.Lost) ∨ r.exec.returned ≠ none ∧ r.exec.runs.length < r.exec.plans

structure Straight (r : Running) : Prop where
  tally : ∃ done, r.exec.Tally done
  kept : ∀ run ∈ r.exec.runs, run.Kept
  blame : r.exec.firstErr ≠ none ∨ (∃ j err, (j, .error err) ∈ r.exec.ch) → r.Excuse
  early : ∀ err, r.exec.returned = some (.error err) → r.exec.runs.length < r.exec.plans ∨ r.exec.firstErr ≠ none
  counted : r.exec.received + r.exec.ch.length = r.exec.runs.countP (·.waiting = .reported)

variable {r : Running}

theorem Straight.start (plans : Nat) (available : Bool) : Straight { exec := executeAll plans available } := by
  refine ⟨⟨[], Exec.tally_start plans available⟩, ?_, ?_, ?_, ?_⟩ <;> grind [executeAll]

section

variable (straight : r.Straight)
include straight

theorem Straight.sound {run : PlanRun} (here : run ∈ r.exec.runs) : run.Sound := by
  obtain ⟨done, tally⟩ := straight.tally
  obtain ⟨j, there⟩ := mem_iff_getElem?.mp here
  exact tally.sound j run there

theorem Excuse.act (excuse : r.Excuse) (event : ExecEvent) : (r.act event).Excuse := by
  rcases excuse with ended | ⟨run, here, lost⟩ | ⟨returned, few⟩
  · exact .inl ended
  · refine .inr (.inl ?_)
    have sound := straight.sound here
    obtain ⟨k, there⟩ := mem_iff_getElem?.mp here
    cases event with
    | run j event =>
      have stepped := lost.step sound event
      simp only [Running.act, Exec.step]
      split
      next other found =>
        rcases Table.after_set found there with ⟨rfl, rfl, now⟩ | ⟨-, now⟩
        · exact ⟨_, mem_of_getElem? (now _), stepped⟩
        · exact ⟨run, mem_of_getElem? (now _), lost⟩
      next => exact ⟨run, here, lost⟩
    | acquire | abandon | collect | finish => exact ⟨run, by grind [Running.act, Exec.step], lost⟩
  · obtain ⟨result, returned⟩ := Option.ne_none_iff_exists'.mp returned
    refine .inr (.inr ⟨by simp [Running.act, Exec.returned_step returned], ?_⟩)
    cases event <;> grind [Running.act, Exec.step]

/-- A goroutine gives up only if there is an excuse for it. -/
theorem Straight.excuse_of_done {err : CtxErr} (done : r.done err)
    (waits : ∃ run ∈ r.exec.runs, run.waiting ≠ .reported) : r.Excuse := by
  simp only [Running.done, Bool.or_eq_true, decide_eq_true_eq, Bool.and_eq_true, Option.isSome_iff_ne_none] at done
  rcases done with ended | ⟨-, first | returned⟩
  · exact .inl (by simp [ended])
  · exact straight.blame (.inl first)
  · obtain ⟨_ | outs, result⟩ := Option.ne_none_iff_exists'.mp returned
    · exact (straight.early _ result).elim (fun few => .inr (.inr ⟨returned, few⟩)) fun first => straight.blame (.inl first)
    · obtain ⟨done, tally⟩ := straight.tally
      obtain ⟨-, started, received, -⟩ := tally.returned outs result
      obtain ⟨run, here, waits⟩ := waits
      have counted := straight.counted
      have most := List.countP_le_length (p := fun run : PlanRun => run.waiting = .reported) (l := r.exec.runs)
      have all := List.countP_eq_length.mp (show r.exec.runs.countP (·.waiting = .reported) = _ by omega) run here
      exact absurd (of_decide_eq_true all) waits

theorem Straight.run {j : Nat} {run : PlanRun} {event : RunEvent} (here : r.exec.runs[j]? = some run)
    (ready : ∀ err, event = .giveUp err → r.done err) : (r.act (.run j event)).Straight := by
  obtain ⟨done, tally⟩ := straight.tally
  have sound := straight.sound (List.mem_of_getElem? here)
  have moved : (r.act (.run j event)).exec = { r.exec with
      runs := r.exec.runs.set j (run.step event).1
      ch := r.exec.ch ++ ((run.step event).2.map (j, ·)).toList } := by simp [Running.act, Exec.step, here]
  refine ⟨moved ▸ ⟨done, Exec.tally_run tally here event⟩, ?_, ?_, moved ▸ by simpa using straight.early, ?_⟩
  · intro run' member
    rw [moved] at member
    rcases mem_or_eq_of_mem_set member with old | rfl
    · exact straight.kept run' old
    · exact (straight.kept run (mem_of_getElem? here)).step event
  · intro seen
    by_cases before : r.exec.firstErr ≠ none ∨ ∃ j err, (j, .error err) ∈ r.exec.ch
    · exact (straight.blame before).act straight _
    · obtain ⟨err, report⟩ : ∃ err, (run.step event).2 = some (.error err) := by
        cases report : (run.step event).2 <;> grind
      rcases PlanRun.lost_of_step sound report with lost | ⟨e, giveUp, waits⟩
      · exact .inr (.inl ⟨_, moved ▸ mem_of_getElem? (Table.set_self here), lost⟩)
      · exact (straight.excuse_of_done (ready e giveUp) ⟨run, mem_of_getElem? here, by simp [waits]⟩).act straight _
  · have counted := straight.counted
    obtain ⟨now, once⟩ := run.reported_step event
    obtain ⟨inside, same⟩ := List.getElem?_eq_some_iff.mp here
    rw [moved]
    grind

theorem Straight.act {event : ExecEvent} {free : Bool} (ready : r.ready free event) : (r.act event).Straight := by
  obtain ⟨done, tally⟩ := straight.tally
  have excuse := fun excuse : r.Excuse => excuse.act straight event
  have tallied := Exec.tally_step tally event
  have ⟨_, kept, blame, early, counted⟩ := straight
  cases event with
  | run j event =>
    cases here : r.exec.runs[j]? with
    | none => simpa [Running.act, Running.started, Exec.step, here] using straight
    | some run => exact straight.run here fun err same => by simpa [same, Running.ready] using ready
  | acquire | abandon | collect | finish =>
    refine ⟨tallied, ?_, fun seen => excuse (blame ?_), ?_, ?_⟩ <;> simp only [Running.act, Exec.step, Exec.collected] at *
    all_goals grind [PlanRun.Kept]

theorem Straight.answers {result : Except String (List Bytes)}
    (returned : r.exec.returned = some result) : r.Answers result := by
  obtain ⟨done, tally⟩ := straight.tally
  have outputs (outs : List Bytes) (ok : result = .ok outs) : r.exec.Outputs outs := by
    subst ok
    refine ⟨(tally.returned outs returned).1 ▸ tally.length, fun j out there => ?_⟩
    obtain ⟨run, out', here, finished, same⟩ := tally.succeeded returned j (Table.lt_length there)
    exact ⟨run, here, by grind⟩
  have whole (outs : List Bytes) (all : r.exec.Outputs outs) :
      (∀ run ∈ r.exec.runs, ¬ run.Lost) ∧ r.exec.plans ≤ r.exec.runs.length := by
    obtain ⟨length, each⟩ := all
    constructor
    · intro run here lost
      obtain ⟨j, there⟩ := mem_iff_getElem?.mp here
      have inside : j < outs.length := by
        have := tally.few
        grind
      obtain ⟨_, there', ok⟩ := each j _ (getElem?_eq_getElem inside)
      grind [PlanRun.Lost]
    · by_contra few
      obtain ⟨_, there, -⟩ := each r.exec.runs.length _ (getElem?_eq_getElem (by omega))
      simp at there
  refine ⟨outputs, fun ⟨run, here, lost⟩ => ?_, fun outs ended all => ?_⟩
  · cases result with
    | ok outs => exact absurd lost ((whole outs (outputs outs rfl)).1 run here)
    | error err => exact ⟨err, rfl⟩
  · cases result with
    | ok outs' =>
      obtain ⟨length, each⟩ := all
      obtain ⟨length', each'⟩ := outputs outs' rfl
      refine congrArg _ (ext_getElem (length'.trans length.symm) fun j inside' inside => ?_)
      obtain ⟨run, there, ok⟩ := each j _ (getElem?_eq_getElem inside)
      obtain ⟨run', there', ok'⟩ := each' j _ (getElem?_eq_getElem inside')
      grind
    | error err =>
      have blame := straight.blame
      have early := straight.early err returned
      grind [Excuse]

end

theorem settles (n : Nat) {e : Exec} (waiting : e.returned = none) (started : e.runs.length = e.plans)
    (left : e.received + n = e.plans) (there : e.ch.length = n) :
    (Exec.component.after e (List.replicate n .collect ++ [.finish])).returned ≠ none := by
  induction n generalizing e with
  | zero =>
    have finished : e.step .finish = { e with returned := some _ } := if_pos ⟨waiting, started, left⟩
    change (e.step .finish).returned ≠ none
    simp [finished]
  | succ n ih =>
    obtain ⟨⟨j, result⟩, ch, next⟩ := exists_cons_of_length_eq_add_one there
    have collected : e.step .collect = Exec.collected { e with ch } j result := by
      simp only [Exec.step, next]
      exact if_pos ⟨waiting, started, by omega⟩
    have settled := ih (e := Exec.collected { e with ch } j result) (by grind) (by grind) (by grind) (by grind)
    rw [← collected] at settled
    exact settled

end Running

namespace Slots

theorem sum_set {counts : List Nat} {i old : Nat} (new : Nat) (here : counts[i]? = some old) :
    (counts.set i new).sum + old = counts.sum + new := by
  induction counts generalizing i with
  | nil => simp at here
  | cons first counts ih => cases i <;> grind

structure Valid (capacity : Nat) (s : Slots) : Prop where
  fixed : s.capacity = capacity
  occupied : s.occupied = s.unfinished
  room : s.occupied ≤ capacity
  straight : ∀ r ∈ s.calls, r.Straight

variable {s : Slots} {capacity : Nat}

theorem Valid.set (valid : s.Valid capacity) {i occupied : Nat} {r r' : Running} (here : s.calls[i]? = some r)
    (straight : r'.Straight) (slots : occupied + r.finished.count false = s.occupied + r'.finished.count false)
    (room : occupied ≤ capacity) : Valid capacity { s with occupied, calls := s.calls.set i r' } where
  fixed := valid.fixed
  occupied := by
    have there : (s.calls.map fun r => r.finished.count false)[i]? = some (r.finished.count false) := by simp [here]
    have sum := sum_set (r'.finished.count false) there
    have before := valid.occupied
    simp only [unfinished, map_set] at before ⊢
    omega
  room := room
  straight other member := (mem_or_eq_of_mem_set member).elim (valid.straight other) (· ▸ straight)

theorem started_le (r : Running) (event : ExecEvent) : r.started event ≤ if event = .acquire then 1 else 0 := by
  cases event <;> grind [Running.started, Exec.step]

theorem Valid.step (valid : s.Valid capacity) (i : Nat) (event : ExecEvent) : (s.step i event).Valid capacity := by
  unfold Slots.step
  split
  · exact valid
  next r here =>
    split
    next ready =>
      have few := started_le r event
      refine valid.set here ((valid.straight r (mem_of_getElem? here)).act ready) ?_ ?_
      · simp [Running.act]
        omega
      · have := valid.fixed
        have := valid.room
        cases event <;> grind [Running.ready]
    next => exact valid

theorem Valid.release (valid : s.Valid capacity) (i j : Nat) : (s.release i j).Valid capacity := by
  unfold Slots.release
  split
  · exact valid
  next r here =>
    split
    next held =>
      obtain ⟨-, holds, positive⟩ := held
      obtain ⟨inside, same⟩ := List.getElem?_eq_some_iff.mp holds
      have straight := valid.straight r (mem_of_getElem? here)
      refine valid.set here ⟨straight.tally, straight.kept, straight.blame, straight.early, straight.counted⟩ ?_ ?_
      · have some := count_pos_iff.mpr (same ▸ getElem_mem inside)
        simp [count_set inside, same]
        omega
      · have := valid.room
        omega
    next => exact valid

theorem Valid.after (capacity : Nat) (events : List SlotEvent) : (component.after { capacity } events).Valid capacity := by
  refine Component.after_of_invariant (P := Valid capacity) ⟨rfl, rfl, Nat.zero_le _, nofun⟩ ?_
  intro s event _ valid
  cases event with
  | call plans available =>
    refine ⟨valid.fixed, ?_, valid.room, fun r member => ?_⟩
    · simpa [component, unfinished] using valid.occupied
    · rcases mem_append.mp member with old | new
      · exact valid.straight r old
      · exact mem_singleton.mp new ▸ Running.Straight.start plans available
  | endContext i err =>
    simp only [component, endContext]
    split
    · exact valid
    next r here =>
      have straight := valid.straight r (mem_of_getElem? here)
      exact valid.set here ⟨straight.tally, straight.kept, by grind [Running.Excuse], straight.early, straight.counted⟩ rfl
        valid.room
  | step i event => exact valid.step i event
  | release i j => exact valid.release i j

end Slots

/-- All calls share the slots, which are occupied by the goroutines that have not ended. A call returns the outputs of
its plans in their order, or an error if one of them was lost; a plan that has been executed is reported, and a call all
of whose plans are reported returns. -/
theorem executeAll_results_and_slots (capacity : Nat) (events : List SlotEvent) :
    let s := Slots.component.after { capacity } events
    s.occupied = s.unfinished ∧ s.occupied ≤ capacity ∧ ∀ r ∈ s.calls,
      (∀ result, r.exec.returned = some result → r.Answers result) ∧
      (∀ run ∈ r.exec.runs, ∀ outcome, run.task = .over outcome →
        run.waiting = .reported ∨ run.resultCh = some outcome.result) ∧
      (r.exec.returned = none → r.exec.runs.length = r.exec.plans → (∀ run ∈ r.exec.runs, run.waiting = .reported) →
        (Exec.component.after r.exec r.exec.settle).returned ≠ none) := by
  intro s
  have valid : s.Valid capacity := Slots.Valid.after capacity events
  refine ⟨valid.occupied, valid.room, fun r here => ?_⟩
  have straight := valid.straight r here
  refine ⟨fun result returned => straight.answers returned, fun run listed outcome past => ?_, ?_⟩
  · have fresh := (straight.sound listed).fresh
    have kept := straight.kept run listed
    cases waiting : run.waiting <;> grind [PlanRun.Kept]
  · intro waiting started reported
    have counted := straight.counted
    rw [countP_eq_length.mpr (by simpa using reported)] at counted
    exact Running.settles _ waiting started (by omega) (by omega)

end FlowRulZ.Messages
