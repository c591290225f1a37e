import FlowRulZ.Node.Production

/-! # Recovery after a crash

A node writes the state of an execution to a file before and after each call.  After a
crash `recoverInFlight` resumes the executions whose last state was running or waiting for
a service.  The state written after a call still points at the call and has no place for
the answer, so such an execution makes the call again.
-/

namespace FlowRulZ.Node

open List Machine

structure Stored where
  plan : Bytes
  st : ExecState
  deriving Repr, DecidableEq

def savedStates (log : List Effect) : List ExecState :=
  log.filterMap fun effect => match effect with
    | .create st | .save st => some st
    | _ => none

/-- What the store holds of an execution after these effects: every write replaces the file. -/
def storedAfter (plan : Bytes) (log : List Effect) : List Stored :=
  (savedStates log).getLast?.toList.map (⟨plan, ·⟩)

/-- The states that `recoverInFlight` asks for. -/
def inFlight : Status → Bool
  | .running | .waitingForService => true
  | _ => false

/-- The pending call, made once more; a compensation is not parsed here. -/
def retriedCall (names : Names) (st : ExecState) : ServiceCall :=
  let (svcName, method) := parseServiceMethod (rawName names st.pendingSvc)
  ⟨svcName, method, st.pendingBody, 0⟩

variable (node : ProdNode)

/-- The steps of a recovered execution: its result, the state it leaves in the store, if any, and its effects. -/
def resumeSteps (plan : Bytes) (resp : Option Bytes) (st : ExecState) (log : List Effect) :
    Except String Bytes × Option ExecState × List Effect :=
  match runSteps node plan (planNames node plan) maxExecutionSteps st.ctxBytes resp st log with
  | (.ok out, _, log) => (.ok out, none, log)
  | (.error e, st, log) =>
    let failed := { st with status := .failed, error := e }
    (.error e, some failed, log ++ [Effect.save failed])

def recoverExecution (stored : Stored) : Except String Bytes × Option ExecState × List Effect :=
  if stored.st.status = .waitingForService then
    let call := retriedCall (planNames node stored.plan) stored.st
    match node.callService [] call with
    | .error e =>
      let failed := { stored.st with status := .failed, error := s!"recovery retry: {e}" }
      (.error failed.error, some failed, [.call call, .save failed])
    | .ok resp =>
      let running := { stored.st with status := .running, pendingSvc := 0, pendingBody := [] }
      resumeSteps node stored.plan (some resp) running [.call call, .save running]
  else resumeSteps node stored.plan none stored.st []

/-- `recoverInFlight`, the outcome of each recovered execution. -/
def recoverInFlight (store : List Stored) : List (Except String Bytes × Option ExecState × List Effect) :=
  if node.hasStateStore then
    (store.filter fun stored => inFlight stored.st.status).map (recoverExecution node)
  else []

/-! ## What recovery is for -/

def asked (call : ServiceCall) : String × String × Bytes := (call.service, call.method, call.body)

def isRunning : Effect → Bool
  | .save st => st.status = .running
  | _ => false

/-- The calls that were answered, and whose answer was followed by a state that is running. -/
def settledCalls (log : List Effect) : List ServiceCall :=
  serviceCalls (log.rdropWhile fun effect => !isRunning effect)

/-- After a crash, what is left of the execution is executed: the calls that were not settled,
    and with the same output. -/
structure Recovers (plan body : Bytes) (log : List Effect) : Prop where
  calls : ((recoverInFlight node (storedAfter plan log)).flatMap fun r => serviceCalls r.2.2).map asked =
    ((serviceCalls (executePlan node plan body).2).drop (settledCalls log).length).map asked
  output : (recoverInFlight node (storedAfter plan log)).head?.bind (·.1.toOption) =
    (executePlan node plan body).1.toOption

/-- The last state is one that recovery can go on from. -/
def Recoverable (plan body : Bytes) (log : List Effect) : Prop :=
  match (savedStates log).reverse with
  | [] => False
  | last :: earlier =>
    match last.status with
    | .waitingForService => ':' ∉ (rawName (planNames node plan) last.pendingSvc).toList
    -- it must not be the state after a call
    | .running => earlier.head?.map (·.status) ≠ some .waitingForService
    -- it is not recovered, which does no harm if there is nothing to do
    | .created => serviceCalls (executePlan node plan body).2 = [] ∧ (executePlan node plan body).1.toOption = none
    | .completed | .failed => False

section

variable {c : Char} {s : String}

theorem mem_parseServiceMethod (other : c ≠ '.') : c ∈ s.toList ↔
    c ∈ (parseServiceMethod s).1.toList ∨ c ∈ (parseServiceMethod s).2.toList := by
  unfold parseServiceMethod
  cases found : Text.splitFirst s '.' with
  | none => simp
  | some parts =>
    rw [(Text.splitFirst_some found).1]
    simp [other]

/-- Service and method are the same without compensation, unless there is a colon in the name. -/
theorem parse_same_iff : parseServiceMethod s = ((parseCompensation s).1, (parseCompensation s).2.1) ↔
    ':' ∉ s.toList := by
  unfold parseCompensation
  cases found : Text.splitFirst s ':' with
  | none => simp [Text.splitFirst_none.mp found]
  | some parts =>
    obtain ⟨before, after⟩ := parts
    obtain ⟨whole, apart⟩ := Text.splitFirst_some found
    have colon : ':' ∈ s.toList := by simp [whole]
    have differs : parseServiceMethod s ≠ parseServiceMethod before := by
      intro same
      rw [mem_parseServiceMethod (by decide), same, ← mem_parseServiceMethod (by decide)] at colon
      exact apart colon
    cases dotted : Text.splitFirst after '.' <;> simpa [colon, dotted] using differs

end

section

variable (plan : Bytes)

def turnAt (pos : Bytes × Option Bytes) : Turn := turn node plan (planNames node plan) 0 pos.1 pos.2 {} []

/-- The loop of `runSteps` without its limit; the texts of errors are left out. -/
def driver : Machine (Bytes × Option Bytes) (Option Bytes) where
  next pos := ((turnAt node plan pos).next (planNames node plan) 0).map id Except.toOption

def noted (pos : Bytes × Option Bytes) : List Effect := (turnAt node plan pos).effects node (planNames node plan) {}

abbrev recorded : Machine ((Bytes × Option Bytes) × List Effect) (Option Bytes × List Effect) :=
  (driver node plan).recording (noted node plan)

structure Idle (st : ExecState) : Prop where
  pendingSvc : st.pendingSvc = 0
  pendingBody : st.pendingBody = []
  output : st.output = []
  error : st.error = ""

/-- A node with a store, whose services always answer alike, in a run that nobody cancels. -/
structure Steady (answers : String → String → Bytes → Except String Bytes) : Prop where
  store : node.hasStateStore = true
  uncancelled : ∀ step, node.cancelled step = none
  answered : ∀ log call, node.callService log call = answers call.service call.method call.body

end

section

variable {node} {plan : Bytes} {names : Names} {st : ExecState} {log : List Effect}
  {answers : String → String → Bytes → Except String Bytes} {pos : Bytes × Option Bytes} {now : Turn}

theorem Idle.start : Idle {} := ⟨rfl, rfl, rfl, rfl⟩

theorem Steady.turn (steady : Steady node answers) (step : Nat) :
    turn node plan (planNames node plan) step pos.1 pos.2 st log = turnAt node plan pos := by
  simp only [turnAt, Node.turn, steady.uncancelled, steady.answered]

theorem Steady.waitingFor (steady : Steady node answers) (pending : Call) (ctxBytes : Bytes) :
    waitingFor node pending ctxBytes {} =
      { status := .waitingForService, pendingSvc := pending.svcId, pendingBody := pending.body, ctxBytes } :=
  if_pos steady.store

theorem Idle.effects (idle : Idle st) (steady : Steady node answers) :
    now.effects node names st = now.effects node names {} := by
  obtain ⟨svc, body, output, error⟩ := idle
  cases now <;>
    simp [Turn.effects, announcing, waitingFor, Turn.state, steady.store, svc, body, output, error]

theorem Idle.state (idle : Idle st) (steady : Steady node answers) {next : Bytes × Option Bytes}
    {step : Nat} (goes : now.next names step = .inl next) : Idle (now.state node st) := by
  obtain ⟨svc, body, output, error⟩ := idle
  cases now <;> cases goes <;> simp only [Turn.state, steady.store, if_true]
  · exact ⟨rfl, rfl, output, error⟩
  · exact ⟨svc, body, output, error⟩

/-- The loop ended as the driver did, or it was cut off. -/
def EndedAs (ended : Except String Bytes × ExecState × List Effect) : Option (Option Bytes × List Effect) → Prop
  | some (out, log) => ended.1.toOption = out ∧ ended.2.2 = log
  | none => ended.1 = .error "execution exceeded max steps"

/-- The loop is the driver, as long as its steps last. -/
theorem runSteps_recorded (steady : Steady node answers) (plan : Bytes) (left : Nat) :
    ∀ (pos : Bytes × Option Bytes) (st : ExecState) (log : List Effect), Idle st →
      EndedAs (runSteps node plan (planNames node plan) left pos.1 pos.2 st log)
        ((recorded node plan).run left (pos, log)) := by
  induction left with
  | zero => exact fun pos st log idle => rfl
  | succ left ih =>
    intro pos st log idle
    have same : (driver node plan).next pos = ((turnAt node plan pos).next (planNames node plan)
        (maxExecutionSteps - (left + 1))).map id Except.toOption := by
      simp only [driver]
      cases turnAt node plan pos <;> rfl
    simp only [runSteps_succ, steady.turn, idle.effects steady]
    rw [recording_run_succ, same]
    cases goes : (turnAt node plan pos).next (planNames node plan) (maxExecutionSteps - (left + 1)) with
    | inl next => exact ih next _ _ (idle.state steady goes)
    | inr out => exact ⟨rfl, rfl⟩

/-! ## Where a run stands -/

variable {pending : Call}

theorem turnAt_again (steady : Steady node answers) {ctxBytes resp : Bytes}
    (answered : turnAt node plan pos = .answered pending ctxBytes resp) :
    turnAt node plan (ctxBytes, none) = .answered pending ctxBytes resp := by
  have called : (turnAt node plan pos).call? = some (pending, ctxBytes, .ok resp) := by
    rw [answered]
    rfl
  obtain ⟨out, stepped, code, rfl, rfl, said⟩ := turn_call called
  rw [steady.answered] at said
  simp [turnAt, turn, steady.uncancelled, steady.answered, executeStep_again stepped code, code, said]

def runningState (ctxBytes : Bytes) : ExecState := { status := .running, ctxBytes := ctxBytes }

abbrev asks (node : ProdNode) (plan : Bytes) (pending : Call) : Effect :=
  .call (serviceCall (planNames node plan) pending)

/-- How the effects of a run end when a turn begins. -/
inductive Standing (node : ProdNode) (plan : Bytes) : Bytes × Option Bytes → List Effect → Prop
  | created : Standing node plan ([], none) [.create {}]
  | continued {ctxBytes : Bytes} {log : List Effect}
      (before : (savedStates log).getLast?.map (·.status) ≠ some .waitingForService) :
      Standing node plan (ctxBytes, none) (log ++ [Effect.save (runningState ctxBytes)])
  | answered {pending : Call} {ctxBytes resp : Bytes} {log : List Effect}
      (again : turnAt node plan (ctxBytes, none) = .answered pending ctxBytes resp) :
      Standing node plan (ctxBytes, some resp)
        (log ++ announcing node (planNames node plan) pending ctxBytes {} ++ [asks node plan pending] ++
          [Effect.save (runningState ctxBytes)])

@[simp]
theorem savedStates_append (log more : List Effect) : savedStates (log ++ more) = savedStates log ++ savedStates more :=
  filterMap_append

theorem Standing.lastStatus (standing : Standing node plan pos log) :
    (savedStates log).getLast?.map (·.status) ≠ some .waitingForService := by
  cases standing with
  | created => simp [savedStates]
  | continued before => simp [savedStates, runningState]
  | answered again => simp [savedStates, runningState]

theorem Standing.step {pos' : Bytes × Option Bytes} {log' : List Effect} (steady : Steady node answers)
    (standing : Standing node plan pos log)
    (move : (recorded node plan).Step (pos, log) (pos', log')) :
    Standing node plan pos' log' := by
  obtain ⟨moved, rfl⟩ := recording_step_iff.mp move
  simp only [Machine.Step, driver] at moved
  simp only [noted]
  cases now : turnAt node plan pos with
  | cancelled | broken | done | refused | unexpected =>
    rw [now] at moved
    cases moved
  | answered pending ctxBytes resp =>
    rw [now] at moved
    cases moved
    have after : Standing node plan (ctxBytes, some resp) (log ++ announcing node (planNames node plan) pending ctxBytes {} ++
        [asks node plan pending] ++ [Effect.save (runningState ctxBytes)]) :=
      .answered (turnAt_again steady now)
    simpa [Turn.effects, Turn.state, saving, steady.store, runningState] using after
  | continued ctxBytes =>
    rw [now] at moved
    cases moved
    have after : Standing node plan (ctxBytes, none) (log ++ [Effect.save (runningState ctxBytes)]) :=
      .continued standing.lastStatus
    simpa [Turn.effects, Turn.state, saving, steady.store, runningState] using after

/-! ## Where a crash leaves it -/

def isWrite : Effect → Bool
  | .create _ | .save _ => true
  | _ => false

def Quiet (log : List Effect) : Prop := ∀ effect ∈ log, isWrite effect = false

theorem Quiet.savedStates (quiet : Quiet log) : savedStates log = [] := by
  unfold Node.savedStates
  rw [filterMap_eq_nil_iff]
  intro effect there
  have unwritten := quiet effect there
  cases effect <;> first | rfl | cases unwritten

theorem Quiet.not_running (quiet : Quiet log) : ∀ effect ∈ log, isRunning effect = false := by
  intro effect there
  have unwritten := quiet effect there
  cases effect <;> first | rfl | cases unwritten

variable {more : List Effect}

theorem settledCalls_append (waits : ∀ effect ∈ more, isRunning effect = false) :
    settledCalls (log ++ more) = settledCalls log := by
  have dropped : ∀ effect ∈ more.reverse, (!isRunning effect) = true := by
    intro effect there
    simp [waits effect (mem_reverse.mp there)]
  simp only [settledCalls, List.rdropWhile, reverse_append, dropWhile_append_of_pos dropped]

theorem Standing.settled (standing : Standing node plan pos log) : settledCalls log = serviceCalls log := by
  have ends : ∀ (log : List Effect) (ctxBytes : Bytes), settledCalls (log ++ [Effect.save (runningState ctxBytes)]) =
      serviceCalls (log ++ [Effect.save (runningState ctxBytes)]) := by
    intro log ctxBytes
    rw [settledCalls]
    simp [isRunning, runningState]
  cases standing with
  | created => rfl
  | continued before => exact ends _ _
  | answered again => exact ends _ _

theorem Quiet.takes (quiet : Quiet log) (cut : more <+: log) : Quiet more :=
  fun effect there => quiet effect (cut.subset there)

theorem Quiet.append (quiet : Quiet log) (later : Quiet more) : Quiet (log ++ more) := fun effect there =>
  (mem_append.mp there).elim (quiet effect) (later effect)

theorem quiet_tryCompensate : Quiet (tryCompensate node) := by
  unfold tryCompensate
  split_ifs <;> simp [Quiet, isWrite]

theorem quiet_asking (pending : Call) :
    Quiet (registering node names pending ++ [Effect.call (serviceCall names pending)]) := by
  unfold registering
  split_ifs <;> simp [Quiet, isWrite]

/-- What a crash can leave of a turn: nothing that was written, or the state that waits for the call of the turn. -/
theorem cut_turn (steady : Steady node answers) (cut : more <+: noted node plan pos)
    (last : more = noted node plan pos → ∃ out, (driver node plan).next pos = .inr out) :
    Quiet more ∨ ∃ pending ctxBytes rest answer, more = .save (waitingFor node pending ctxBytes {}) :: rest ∧
      Quiet rest ∧ (turnAt node plan pos).call? = some (pending, ctxBytes, answer) := by
  simp only [noted, driver] at cut last
  -- a turn with a call starts with a write
  have called : ∀ (pending : Call) (ctxBytes : Bytes) (rest : List Effect),
      announcing node (planNames node plan) pending ctxBytes {} ++ [asks node plan pending] ++ rest =
        .save (waitingFor node pending ctxBytes {}) ::
          (registering node (planNames node plan) pending ++ [asks node plan pending] ++ rest) := by
    intro pending ctxBytes rest
    simp [announcing, saving, steady.store]
  cases now : turnAt node plan pos with
  | cancelled e | broken e | unexpected code =>
    rw [now] at cut
    exact .inl (quiet_tryCompensate.takes cut)
  | done output =>
    rw [now, Turn.effects] at cut
    refine .inl (Quiet.takes ?_ cut)
    split_ifs <;> simp [Quiet, isWrite]
  | continued ctxBytes =>
    simp only [now, Turn.effects, saving, steady.store] at cut last
    rcases prefix_concat_iff.mp (show more <+: [] ++ [_] from cut) with whole | none
    · obtain ⟨out, halted⟩ := last whole
      cases halted
    · obtain rfl := prefix_nil.mp none
      exact .inl (by simp [Quiet])
  | refused pending ctxBytes e =>
    rw [now, Turn.effects, called] at cut
    rcases prefix_cons_iff.mp cut with rfl | ⟨rest, rfl, inside⟩
    · exact .inl (by simp [Quiet])
    · have quiet := ((quiet_asking pending).append quiet_tryCompensate).takes inside
      exact .inr ⟨pending, ctxBytes, rest, .error e, rfl, quiet, rfl⟩
  | answered pending ctxBytes resp =>
    have effects : (turnAt node plan pos).effects node (planNames node plan) {} =
        .save (waitingFor node pending ctxBytes {}) ::
          (registering node (planNames node plan) pending ++ [asks node plan pending] ++
            [Effect.save (runningState ctxBytes)]) := by
      rw [now, Turn.effects, called]
      simp [saving, steady.store, Turn.state, runningState]
    rw [effects] at cut last
    rcases prefix_cons_iff.mp cut with rfl | ⟨rest, rfl, inside⟩
    · exact .inl (by simp [Quiet])
    · rcases prefix_concat_iff.mp inside with rfl | inside
      · obtain ⟨out, halted⟩ := last rfl
        rw [now] at halted
        cases halted
      · exact .inr ⟨pending, ctxBytes, rest, .ok resp, rfl, (quiet_asking pending).takes inside, rfl⟩

theorem serviceCalls_quiet : serviceCalls [.save st] = [] := rfl

theorem resumeSteps_spec (node : ProdNode) (plan : Bytes) (resp : Option Bytes) (st : ExecState) (log : List Effect) :
    (resumeSteps node plan resp st log).1 =
        (runSteps node plan (planNames node plan) maxExecutionSteps st.ctxBytes resp st log).1 ∧
      serviceCalls (resumeSteps node plan resp st log).2.2 = serviceCalls
        (runSteps node plan (planNames node plan) maxExecutionSteps st.ctxBytes resp st log).2.2 := by
  unfold resumeSteps
  rcases runSteps node plan (planNames node plan) maxExecutionSteps st.ctxBytes resp st log with ⟨_ | _, st', log'⟩
  · exact ⟨rfl, by simp [serviceCalls_quiet]⟩
  · exact ⟨rfl, rfl⟩

/-- A crash in a turn of a run: the effects before the turn and those of the turn that were not lost, and what the run
would still have come to. -/
structure Crash (node : ProdNode) (plan : Bytes) (log more : List Effect) (pos : Bytes × Option Bytes)
    (out : Option Bytes) (rest : List Effect) : Prop where
  standing : Standing node plan pos log
  cut : more <+: noted node plan pos
  last : more = noted node plan pos →
    ∃ out, (driver node plan).next pos = .inr out
  ran : (recorded node plan).run maxExecutionSteps (pos, []) = some (out, rest)
  ranShort : pos.2 ≠ none →
    (recorded node plan).run (maxExecutionSteps - 1) (pos, []) = some (out, rest)

variable {body ctxBytes : Bytes} {rest : List Effect} {saved : List ExecState} {answer : Except String Bytes}
  {out : Option Bytes}

theorem recovers_of {recovered : List (Except String Bytes × Option ExecState × List Effect)}
    (all : recoverInFlight node (storedAfter plan log) = recovered) :
    Recovers node plan body log ↔ (recovered.flatMap fun r => serviceCalls r.2.2).map asked =
        ((serviceCalls (executePlan node plan body).2).drop (settledCalls log).length).map asked ∧
      recovered.head?.bind (·.1.toOption) = (executePlan node plan body).1.toOption := by
  subst all
  exact ⟨fun recovers => ⟨recovers.calls, recovers.output⟩, fun both => ⟨both.1, both.2⟩⟩

theorem idle_running (ctxBytes : Bytes) : Idle (runningState ctxBytes) := ⟨rfl, rfl, rfl, rfl⟩

theorem serviceCalls_noted (called : (turnAt node plan pos).call? = some (pending, ctxBytes, answer)) :
    serviceCalls (noted node plan pos) = [serviceCall (planNames node plan) pending] := by
  rw [noted, serviceCalls_effects, Turn.calls, called]
  rfl

theorem runSteps_grows (node : ProdNode) (plan : Bytes) (left : Nat) :
    ∀ (ctxBytes : Bytes) (resp : Option Bytes) (st : ExecState) (log : List Effect),
      log <+: (runSteps node plan (planNames node plan) left ctxBytes resp st log).2.2 := by
  induction left with
  | zero => exact fun ctxBytes resp st log => prefix_append _ _
  | succ left ih =>
    intro ctxBytes resp st log
    rw [runSteps_succ]
    dsimp only
    split
    · exact (prefix_append _ _).trans (ih _ _ _ _)
    · exact prefix_append _ _

theorem recover_waiting_first (node : ProdNode) (plan : Bytes) (waiting : st.status = .waitingForService) :
    ∃ more, serviceCalls (recoverExecution node ⟨plan, st⟩).2.2 = retriedCall (planNames node plan) st :: more := by
  unfold recoverExecution
  rw [if_pos waiting]
  dsimp only
  split
  · exact ⟨[], rfl⟩
  · rw [(resumeSteps_spec _ _ _ _ _).2]
    obtain ⟨more, grown⟩ := runSteps_grows node plan maxExecutionSteps _ _ _ _
    rw [← grown]
    exact ⟨serviceCalls more, rfl⟩

theorem recoverable_of (states : savedStates log = saved ++ [st]) : Recoverable node plan body log ↔
      match st.status with
      | .waitingForService => ':' ∉ (rawName (planNames node plan) st.pendingSvc).toList
      | .running => saved.getLast?.map (·.status) ≠ some .waitingForService
      | .created => serviceCalls (executePlan node plan body).2 = [] ∧ (executePlan node plan body).1.toOption = none
      | .completed | .failed => False := by
  unfold Recoverable
  rw [states, reverse_append, ← head?_reverse]
  rfl

section

variable (steady : Steady node answers)
include steady

/-- The steps of a recovered execution end as the driver does. -/
theorem resumeSteps_recorded (idle : Idle st) {resp : Option Bytes} {rest : List Effect}
    (ran : (recorded node plan).run maxExecutionSteps ((st.ctxBytes, resp), []) = some (out, rest)) :
    (resumeSteps node plan resp st log).1.toOption = out ∧
      serviceCalls (resumeSteps node plan resp st log).2.2 = serviceCalls log ++ serviceCalls rest := by
  have ended := runSteps_recorded steady plan maxExecutionSteps (st.ctxBytes, resp) st log idle
  rw [recording_run, ran] at ended
  obtain ⟨result, effects⟩ := resumeSteps_spec node plan resp st log
  rw [result, effects, ← serviceCalls_append]
  exact ⟨ended.1, congrArg serviceCalls ended.2⟩

theorem executePlan_recorded (body : Bytes)
    (finishes : (executePlan node plan body).1 ≠ .error "execution exceeded max steps") :
    ∃ out log last, (recorded node plan).run maxExecutionSteps (([], none), [.create {}]) = some (out, log) ∧
      (executePlan node plan body).1.toOption = out ∧
      (executePlan node plan body).2 = log ++ [Effect.save last] := by
  have ended := runSteps_recorded steady plan maxExecutionSteps ([], none) {} [.create {}] .start
  obtain ⟨last, executed⟩ := executePlan_eq node plan body
  simp only [steady.store, saving] at executed
  rw [executed] at finishes ⊢
  cases ran : (recorded node plan).run maxExecutionSteps (([], none), [.create {}]) with
  | none =>
    rw [ran] at ended
    exact absurd ended finishes
  | some result =>
    rw [ran] at ended
    exact ⟨result.1, result.2, last, rfl, ended.1, congrArg (· ++ [Effect.save last]) ended.2⟩

theorem crash_in_turn {before after : List Effect}
    (finishes : (executePlan node plan body).1 ≠ .error "execution exceeded max steps")
    (cut : (executePlan node plan body).2 = before ++ after) (begun : before ≠ [])
    (unfinished : after ≠ []) :
    ∃ log more pos out rest, before = log ++ more ∧ Crash node plan log more pos out rest ∧
      (executePlan node plan body).1.toOption = out ∧
      serviceCalls (executePlan node plan body).2 = serviceCalls log ++ serviceCalls rest := by
  obtain ⟨out, whole, last, ran, output, effects⟩ := executePlan_recorded steady body finishes
  -- the crash is before the last write and after the first one
  have inside : before <+: whole := by
    have part : before <+: whole ++ [Effect.save last] := ⟨after, by rw [← cut, effects]⟩
    rcases prefix_concat_iff.mp part with all | some
    · rw [effects, ← all] at cut
      exact absurd (self_eq_append_right.mp cut) unfinished
    · exact some
  have first : [.create {}] <+: before := by
    obtain ⟨rest, rfl, -⟩ := recording_run_some ran
    rcases prefix_cons_iff.mp inside with none | ⟨more, rfl, -⟩
    · exact absurd none begun
    · simp
  obtain ⟨pos, log, more, path, split, cut', ends⟩ :=
    recording_cut (exists_run_iff.mp ⟨_, ran⟩) first inside
  have standing : Standing node plan pos log :=
    always_of_invariant (P := fun s => Standing node plan s.1 s.2) .created (Standing.step steady) _ path
  obtain ⟨rest, rfl, ranRest⟩ := recording_run_some (run_of_reaches ran path)
  refine ⟨log, more, pos, out, rest, split, ⟨standing, cut', fun all => ⟨_, ends all⟩, ranRest, ?_⟩,
    output, by simp [effects, serviceCalls_quiet]⟩
  intro responded
  rcases path.cases_tail with same | ⟨earlier, path', move⟩
  · exact absurd (congrArg (·.1.2) same) responded
  · obtain ⟨less, enough, later⟩ := run_step (run_of_reaches ran path') move
    obtain ⟨rest', same, ranRest'⟩ := recording_run_some later
    rw [enough, Nat.add_sub_cancel, ranRest', append_cancel_left same]

theorem Crash.remaining {more rest : List Effect} (crash : Crash node plan log more pos out rest)
    (calls : serviceCalls (executePlan node plan body).2 = serviceCalls log ++ serviceCalls rest) :
    (serviceCalls (executePlan node plan body).2).drop (settledCalls (log ++ more)).length =
      serviceCalls rest := by
  have waits : ∀ effect ∈ more, isRunning effect = false := by
    rcases cut_turn steady crash.cut crash.last with quiet | ⟨pending, ctxBytes, others, -, rfl, quiet, -⟩
    · exact quiet.not_running
    · intro effect there
      rcases mem_cons.mp there with rfl | later
      · simp [isRunning, steady.waitingFor]
      · exact quiet.not_running effect later
  rw [calls, settledCalls_append waits, crash.standing.settled, drop_left]

theorem recovers_single (states : savedStates log = saved ++ [st]) (flying : inFlight st.status = true) :
    Recovers node plan body log ↔ (serviceCalls (recoverExecution node ⟨plan, st⟩).2.2).map asked =
        ((serviceCalls (executePlan node plan body).2).drop (settledCalls log).length).map asked ∧
      (recoverExecution node ⟨plan, st⟩).1.toOption = (executePlan node plan body).1.toOption := by
  have one : recoverInFlight node (storedAfter plan log) = [recoverExecution node ⟨plan, st⟩] := by
    simp [recoverInFlight, storedAfter, states, steady.store, flying]
  rw [recovers_of one]
  simp only [flatMap_singleton, head?_cons, Option.bind_some]

theorem recover_continued (ran : (recorded node plan).run maxExecutionSteps ((ctxBytes, none), []) = some (out, rest)) :
    (recoverExecution node ⟨plan, runningState ctxBytes⟩).1.toOption = out ∧
      serviceCalls (recoverExecution node ⟨plan, runningState ctxBytes⟩).2.2 = serviceCalls rest :=
  resumeSteps_recorded steady (idle_running ctxBytes) ran

theorem savedStates_asking (pending : Call) (ctxBytes : Bytes) :
    savedStates (announcing node names pending ctxBytes {} ++ [Effect.call (serviceCall names pending)]) =
      [waitingFor node pending ctxBytes {}] := by
  rw [announcing, append_assoc, savedStates_append, (quiet_asking pending).savedStates]
  simp [saving, steady.store, savedStates]

/-- A state after a call is gone on from with the same call. -/
theorem recover_answered {ctxBytes resp : Bytes}
    (again : turnAt node plan (ctxBytes, none) = .answered pending ctxBytes resp)
    (ran : (recorded node plan).run (maxExecutionSteps - 1) ((ctxBytes, some resp), []) = some (out, rest)) :
    serviceCalls (recoverExecution node ⟨plan, runningState ctxBytes⟩).2.2 =
      serviceCall (planNames node plan) pending :: serviceCalls rest := by
  have move : (driver node plan).next (ctxBytes, none) = .inl (ctxBytes, some resp) := by
    simp [driver, again, Turn.next]
  have whole : (recorded node plan).run (maxExecutionSteps - 1 + 1) ((ctxBytes, none), []) =
      some (out, noted node plan (ctxBytes, none) ++ rest) := by
    rw [recording_run_succ, move]
    dsimp only
    rw [recording_run, ran]
    rfl
  rw [(recover_continued steady whole).2]
  have called : (turnAt node plan (ctxBytes, none)).call? = some (pending, ctxBytes, .ok resp) := by rw [again]; rfl
  simp [serviceCalls_noted called]

theorem asked_retried (pending : Call) (ctxBytes : Bytes) :
    asked (retriedCall names (waitingFor node pending ctxBytes {})) = asked (serviceCall names pending) ↔
      ':' ∉ (rawName names pending.svcId).toList := by
  rw [← parse_same_iff]
  simp [asked, retriedCall, serviceCall, waitingFor, steady.store, Prod.ext_iff]

theorem callService_retried (called : (turnAt node plan pos).call? = some (pending, ctxBytes, answer))
    (plain : ':' ∉ (rawName (planNames node plan) pending.svcId).toList) :
    node.callService [] (retriedCall (planNames node plan) (waitingFor node pending ctxBytes {})) = answer := by
  obtain ⟨out, -, -, -, -, said⟩ := turn_call called
  have same := (asked_retried steady pending ctxBytes).mpr plain
  simp only [asked, Prod.mk.injEq] at same
  rw [steady.answered] at said ⊢
  rw [same.1, same.2.1, same.2.2, said]

/-- A state that waits for a service is gone on from as if the crash had not been, if the name of the service has no
colon. -/
theorem recover_waiting (called : (turnAt node plan pos).call? = some (pending, ctxBytes, answer))
    (plain : ':' ∉ (rawName (planNames node plan) pending.svcId).toList)
    (ran : (recorded node plan).run maxExecutionSteps (pos, []) = some (out, rest)) :
    (serviceCalls (recoverExecution node ⟨plan, waitingFor node pending ctxBytes {}⟩).2.2).map asked =
        (serviceCalls rest).map asked ∧
      (recoverExecution node ⟨plan, waitingFor node pending ctxBytes {}⟩).1.toOption = out := by
  have same := (asked_retried steady pending ctxBytes).mpr plain
  have said := callService_retried steady called plain
  have calls := serviceCalls_noted called
  have waiting : (waitingFor node pending ctxBytes {}).status = .waitingForService := by
    rw [steady.waitingFor]
  unfold recoverExecution
  rw [if_pos waiting]
  simp only [said]
  rw [show maxExecutionSteps = maxExecutionSteps - 1 + 1 from rfl, recording_run_succ] at ran
  cases now : turnAt node plan pos <;> rw [now] at called <;> cases called
  case answered =>
    simp only [driver, now] at ran
    obtain ⟨rest, rfl, onward⟩ := recording_run_some ran
    have whole := run_mono onward (Nat.sub_le maxExecutionSteps 1)
    have state : { waitingFor node pending ctxBytes {} with
        status := .running, pendingSvc := 0, pendingBody := [] } = runningState ctxBytes := by
      simp [steady.waitingFor, runningState]
    simp only [state]
    obtain ⟨result, effects⟩ := resumeSteps_recorded steady (idle_running ctxBytes) whole
    refine ⟨?_, result⟩
    rw [effects]
    simp only [serviceCalls_append, calls]
    exact congrArg (· :: (serviceCalls rest).map asked) same
  case refused =>
    simp only [driver, now] at ran
    cases ran
    refine ⟨?_, rfl⟩
    rw [nil_append, calls]
    exact congrArg (fun call => [call]) same

theorem recovers_created (states : savedStates log = [{}]) : Recovers node plan body log ↔
      ((serviceCalls (executePlan node plan body).2).drop (settledCalls log).length).map asked = [] ∧
        (executePlan node plan body).1.toOption = none := by
  have none_ : recoverInFlight node (storedAfter plan log) = [] := by
    simp [recoverInFlight, storedAfter, states, steady.store, inFlight]
  rw [recovers_of none_]
  exact and_congr eq_comm eq_comm

end

/-- After a crash between the first and the last write of an execution that is not cut off, recovery goes on as if the
crash had not been if and only if the last state written is one it can go on from. -/
theorem recovers_iff (steady : Steady node answers) {body : Bytes} {before after : List Effect}
    (finishes : (executePlan node plan body).1 ≠ .error "execution exceeded max steps")
    (cut : (executePlan node plan body).2 = before ++ after) (begun : before ≠ [])
    (unfinished : after ≠ []) :
    Recovers node plan body before ↔ Recoverable node plan body before := by
  obtain ⟨log, more, pos, out, rest, rfl, crash, output, calls⟩ :=
    crash_in_turn steady finishes cut begun unfinished
  have remaining := crash.remaining steady calls
  have standing := crash.standing
  rcases cut_turn steady crash.cut crash.last with quiet | ⟨pending, ctxBytes, others, answer, rfl, quiet, called⟩
  · have states : savedStates (log ++ more) = savedStates log := by simp [quiet.savedStates]
    cases standing with
    | created =>
      have last : savedStates ([Effect.create {}] ++ more) = [] ++ [({} : ExecState)] := states
      have same : serviceCalls (executePlan node plan body).2 = serviceCalls rest := calls
      rw [recovers_created steady states, recoverable_of last, remaining, same, map_eq_nil_iff]
    | continued before =>
      have last := states.trans (savedStates_append _ [.save (runningState _)])
      obtain ⟨result, effects⟩ := recover_continued steady crash.ran
      rw [recovers_single steady last rfl, recoverable_of last, remaining, effects, result, output]
      exact iff_of_true ⟨rfl, rfl⟩ before
    | answered again =>
      have last := states.trans (savedStates_append _ [.save (runningState _)])
      have effects := recover_answered steady again (crash.ranShort (by simp))
      rw [recovers_single steady last rfl, recoverable_of last, remaining, effects]
      refine iff_of_false ?_ ?_
      · rintro ⟨same, -⟩
        simpa using congrArg List.length same
      · simp [savedStates_asking steady, steady.waitingFor, runningState]
  · have states : savedStates (log ++ .save (waitingFor node pending ctxBytes {}) :: others) =
        savedStates log ++ [waitingFor node pending ctxBytes {}] := by
      rw [savedStates_append]
      congr 1
      exact congrArg _ quiet.savedStates
    have waiting : (waitingFor node pending ctxBytes {}).status = .waitingForService := by
      rw [steady.waitingFor]
    have svcId : (waitingFor node pending ctxBytes {}).pendingSvc = pending.svcId := by
      rw [steady.waitingFor]
    rw [recovers_single steady states (by rw [waiting]; rfl), recoverable_of states, remaining, output]
    simp only [waiting, svcId]
    constructor
    · rintro ⟨same, -⟩
      obtain ⟨later, first⟩ := recover_waiting_first node plan waiting
      obtain ⟨rest', rfl⟩ := recording_run_first crash.ran
      rw [first, nil_append, serviceCalls_append, serviceCalls_noted called] at same
      exact (asked_retried steady pending ctxBytes).mp (head_eq_of_cons_eq same)
    · intro plain
      exact recover_waiting steady called plain crash.ran

end

def storing (nodes : List ASTNode) : ProdNode :=
  { counting nodes with
    hasStateStore := true
    callService := fun _ call => .ok (call.body ++ [1]) }

/-- A crash before the second of two calls; only the second one is made by the recovery. -/
theorem recovers_second_call :
    let node := storing [.next "a", .next "b"]
    let before := (executePlan node [0] [7]).2.take 5
    Recovers node [0] [7] before ∧ serviceCalls before = [⟨"a", "", [], 0⟩] ∧
      (recoverInFlight node (storedAfter [0] before)).map (fun r => (r.1.toOption, serviceCalls r.2.2)) =
        [(some [1, 1], [⟨"b", "", [1], 0⟩])] := by
  have steady : Steady (storing [.next "a", .next "b"]) fun _ _ body => .ok (body ++ [1]) :=
    ⟨rfl, fun _ => rfl, fun _ _ => rfl⟩
  refine ⟨?_, by decide +kernel, by decide +kernel⟩
  apply (recovers_iff steady (by decide +kernel) (take_append_drop 5 _).symm (by decide +kernel)
    (by decide +kernel)).mpr
  have saved : savedStates ((executePlan (storing [.next "a", .next "b"]) [0] [7]).2.take 5) ≠ [] := by
    decide +kernel
  rw [recoverable_of (dropLast_append_getLast saved).symm]
  have waits : ((savedStates ((executePlan (storing [.next "a", .next "b"]) [0] [7]).2.take 5)).getLast
      saved).status = .waitingForService := by decide +kernel +revert
  rw [waits]
  decide +kernel +revert

/-- A crash after the state that follows a call: the call is made again. A crash before a call with a compensation:
another method is called. -/
theorem recovery_repeats_call : (let node := storing [.next "a"]
      let before := (executePlan node [0] [7]).2.take 4
      settledCalls before = [⟨"a", "", [], 0⟩] ∧ serviceCalls (executePlan node [0] [7]).2 = [⟨"a", "", [], 0⟩] ∧
        (recoverInFlight node (storedAfter [0] before)).map (fun r => serviceCalls r.2.2) = [[⟨"a", "", [], 0⟩]] ∧
        ¬ Recovers node [0] [7] before) ∧
      (let node := storing [.next "a.m:c"]
        let before := (executePlan node [0] [7]).2.take 2
        serviceCalls (executePlan node [0] [7]).2 = [⟨"a", "m", [], 0⟩] ∧
        (recoverInFlight node (storedAfter [0] before)).map (fun r => serviceCalls r.2.2) = [[⟨"a", "m:c", [], 0⟩]] ∧
        ¬ Recovers node [0] [7] before) := by
  refine ⟨⟨by decide +kernel, by decide +kernel, by decide +kernel, fun recovers => ?_⟩, by decide +kernel,
    by decide +kernel, fun recovers => ?_⟩
  · exact absurd recovers.calls (by decide +kernel)
  -- nothing is settled, so the call is to be made, but of another method
  · exact absurd recovers.calls (by decide +kernel)

end FlowRulZ.Node
