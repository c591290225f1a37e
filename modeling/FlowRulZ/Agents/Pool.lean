import FlowRulZ.Lib.Component
import Mathlib.Algebra.Group.Nat.Defs

/-! # The agent pool

An agent sets its state to running when it starts, and never to idle again.  The health check looks for idle agents
while they go on.
-/

namespace FlowRulZ.Agents

open List

inductive AgentState where
  | idle
  | running
  | draining
  | stopped
  deriving Repr, DecidableEq

inductive Place where
  | unstarted
  | loop
  | waiting
  | executing
  | draining
  | done
  deriving Repr, DecidableEq

structure Agent where
  state : AgentState := .idle
  place : Place := .unstarted
  /-- Whether `stopCh` is closed. -/
  stopping : Bool := false
  lastTaskTime : Nat := 0
  /-- Whether it is still in the map of the pool. -/
  inPool : Bool := true
  deriving Repr, DecidableEq

/-- What an agent does next; `DequeueWait` returns with a task or without one. -/
def Agent.step (now : Nat) (task cancelled : Bool) (a : Agent) : Agent :=
  match a.place with
  | .unstarted => { a with state := .running, place := .loop }
  | .loop => if a.stopping then { a with state := .draining, place := .draining } else { a with place := .waiting }
  | .waiting =>
    if task then { a with state := .running, lastTaskTime := now, place := .executing }
    else if !a.stopping && cancelled then { a with state := .stopped, place := .done }
    else { a with place := .loop }
  | .executing => { a with place := .loop }
  | .draining => { a with state := .stopped, place := .done }
  | .done => a

/-- `now.Sub(time)`, which is cut at the longest duration. -/
def since (now time : Nat) : Nat := min (now - time) (2 ^ 63 - 1)

structure PoolConfig where
  minAgents : Nat
  maxAgents : Nat
  queueSize : Nat
  /-- Whether so many tasks are more than `ScaleUpThreshold` of the queue. -/
  congested : Nat → Bool
  scaleDownThreshold : Nat

structure AgentPool where
  config : PoolConfig
  agents : List Agent
  queue : Nat := 0
  stopped : Bool := false
  cancelled : Bool := false
  lastScaleTime : Nat
  /-- The agent that a health check has picked. -/
  oldest : Option Nat := none

inductive Event where
  | submit
  | agent (i now : Nat) (task : Bool)
  | checkHealth (now : Nat) (order : List Nat)
  | remove
  | stop
  | cancel

namespace AgentPool

def start (config : PoolConfig) (now : Nat) : AgentPool :=
  { config, agents := replicate config.minAgents {}, lastScaleTime := now }

variable (p : AgentPool)

def change (f : Nat → Agent → Agent) : AgentPool := { p with agents := p.agents.mapIdx f }

/-- Whether an agent in `DequeueWait` cannot go on. -/
def blocked (task : Bool) (a : Agent) : Bool :=
  a.place = .waiting && if task then p.queue = 0 else !(p.stopped || p.cancelled)

def taken (task : Bool) (a : Agent) : Nat :=
  match a.place with
  | .waiting => if task then p.queue - 1 else p.queue
  | .draining => 0
  | _ => p.queue

def scaleUp (now : Nat) : AgentPool :=
  if p.config.congested p.queue && p.agents.countP (·.inPool) < p.config.maxAgents &&
      5000000000 < since now p.lastScaleTime then
    { p with agents := p.agents ++ [{}], lastScaleTime := now }
  else p

/-- The idle agent with the oldest task, in the order of the map. -/
def oldestIdle (order : List Nat) : Option (Nat × Nat) :=
  order.foldl (fun oldest i => match p.agents[i]? with
    | some a =>
      if a.inPool && a.state = .idle && oldest.all (a.lastTaskTime < ·.2) then some (i, a.lastTaskTime) else oldest
    | none => oldest) none

def scaleDown (now : Nat) (order : List Nat) : AgentPool :=
  if p.config.minAgents < p.agents.countP (·.inPool) && p.config.scaleDownThreshold < since now p.lastScaleTime then
    match p.oldestIdle order with
    | some (i, time) =>
      if p.config.scaleDownThreshold < since now time then { p with oldest := some i, lastScaleTime := now } else p
    | none => p
  else p

def step : Event → AgentPool
  | .submit => if p.stopped || p.config.queueSize ≤ p.queue then p else { p with queue := p.queue + 1 }
  | .agent i now task =>
    match p.agents[i]? with
    | some a =>
      if p.blocked task a then p
      else { p.change fun j a => if j = i then a.step now task p.cancelled else a with queue := p.taken task a }
    | none => p
  | .checkHealth now order => if p.oldest.isSome then p else (p.scaleUp now).scaleDown now order
  | .remove =>
    { p.change fun j a => if p.oldest = some j then { a with stopping := true, inPool := false } else a with oldest := none }
  | .stop => { p.change fun _ a => { a with stopping := a.stopping || a.inPool } with stopped := true }
  | .cancel => { p with cancelled := true }

end AgentPool

def pool : Component AgentPool Event Unit where
  handle p event := (p.step event, [])

def Place.report : Place → AgentState
  | .unstarted => .idle
  | .loop | .waiting | .executing => .running
  | .draining => .draining
  | .done => .stopped

def Agent.Reports (a : Agent) : Prop :=
  (a.place = .waiting → a.state = .idle) ∧ (a.place = .executing → a.state = .running)

variable {p : AgentPool} {a : Agent}

theorem step_report (now : Nat) (task cancelled : Bool) (reports : a.state = a.place.report) :
    (a.step now task cancelled).state = (a.step now task cancelled).place.report := by
  cases place : a.place <;> rw [place] at reports <;> simp only [Agent.step, place]
  case loop | waiting => split_ifs <;> first | rfl | exact reports
  case unstarted | draining => rfl
  case executing | done => exact reports

/-- Every agent reports where it is. -/
def Placed (p : AgentPool) : Prop := ∀ a ∈ p.agents, a.state = a.place.report

theorem agents_scaleDown (now : Nat) (order : List Nat) : (p.scaleDown now order).agents = p.agents := by
  grind [AgentPool.scaleDown]

/-- The agents after a step are new ones and those before it, of which one may have taken a step itself. -/
theorem step_agents {event : Event} {i : Nat} {a' : Agent} (there : (p.step event).agents[i]? = some a') :
    a' = {} ∨ ∃ a, p.agents[i]? = some a ∧ (a'.place = a.place ∧ a'.state = a.state ∨
      ∃ now task, event = .agent i now task ∧ a' = a.step now task p.cancelled) := by
  cases event <;>
    grind [AgentPool.step, AgentPool.change, AgentPool.scaleUp, agents_scaleDown]

/-- A property of agents that new ones have and their own steps keep is one of all agents. -/
theorem each_step {P : Agent → Prop} {event : Event} (new : P {})
    (same : ∀ a a' : Agent, a'.place = a.place → a'.state = a.state → P a → P a')
    (own : ∀ i now task a, event = .agent i now task → p.agents[i]? = some a → P a → P (a.step now task p.cancelled))
    (all : ∀ a ∈ p.agents, P a) : ∀ a ∈ (p.step event).agents, P a := by
  intro a' member
  obtain ⟨i, there⟩ := mem_iff_getElem?.mp member
  obtain rfl | ⟨a, here, ⟨place, state⟩ | ⟨now, task, moves, rfl⟩⟩ := step_agents there
  · exact new
  · exact same a a' place state (all a (mem_of_getElem? here))
  · exact own i now task a moves here (all a (mem_of_getElem? here))

theorem placed_step (event : Event) (placed : Placed p) : Placed (p.step event) := by
  refine each_step rfl (fun a a' place state reports => ?_) (fun _ _ _ _ _ _ => step_report _ _ _) placed
  rw [state, place, reports]

/-- An agent that goes on at the head of its loop has been stopped. -/
def Calm (p : AgentPool) : Event → Prop
  | .agent i _ _ => ∀ a, p.agents[i]? = some a → a.place = .loop → a.stopping = true
  | _ => True

/-- The agent that a health check removes is not executing a task. -/
def Spares (p : AgentPool) : Event → Prop
  | .remove => ∀ i a, p.oldest = some i → p.agents[i]? = some a → a.place ≠ .executing
  | _ => True

/-- The agent that a health check has picked takes no step before it is removed. -/
def Undisturbed (p : AgentPool) : Event → Prop
  | .agent i _ _ => p.oldest ≠ some i
  | _ => True

def Workless (p : AgentPool) : Prop :=
  ∀ a ∈ p.agents, a.state = a.place.report ∧ a.place ≠ .waiting ∧ a.place ≠ .executing

theorem workless_step {event : Event} (calm : Calm p event) (workless : Workless p) : Workless (p.step event) := by
  refine each_step (by decide) (fun a a' place state rests => ?_) ?_ workless
  · rwa [state, place]
  · rintro i now task a rfl here ⟨reports, waits, executes⟩
    refine ⟨step_report _ _ _ reports, ?_⟩
    cases place : a.place
    case loop => simp [Agent.step, place, calm a here place]
    case waiting => exact absurd place waits
    case executing => exact absurd place executes
    all_goals simp [Agent.step, place]

theorem calm_of_reports {event : Event} (placed : Placed p) (reports : ∀ a ∈ (p.step event).agents, a.Reports) :
    Calm p event := by
  cases event with
  | agent i now task =>
    intro a here loop
    by_contra running
    have there : (p.step (.agent i now task)).agents[i]? = some { a with place := .waiting } := by
      simp [AgentPool.step, AgentPool.blocked, AgentPool.change, here, loop, Agent.step, running]
    have idle : a.state = .idle := (reports _ (mem_of_getElem? there)).1 rfl
    rw [placed a (mem_of_getElem? here), loop] at idle
    cases idle
  | _ => trivial

theorem idle_of_oldestIdle {order : List Nat} {i time : Nat} (picked : p.oldestIdle order = some (i, time)) :
    ∃ a, p.agents[i]? = some a ∧ a.state = .idle := by
  revert picked
  unfold AgentPool.oldestIdle
  refine foldlRecOn (motive := fun found => found = some (i, time) → ∃ a, p.agents[i]? = some a ∧ a.state = .idle)
    order _ nofun ?_
  intro found ih j _
  split
  · rename_i a there
    split
    · rename_i older
      rintro ⟨⟩
      simp only [Bool.and_eq_true, decide_eq_true_eq] at older
      exact ⟨a, there, older.1.2⟩
    · exact ih
  · exact ih

theorem oldest_step {event : Event} {i : Nat} (picked : (p.step event).oldest = some i) :
    p.oldest = some i ∨ ∃ a, (p.step event).agents[i]? = some a ∧ a.state = .idle := by
  cases event <;>
    grind [AgentPool.step, AgentPool.change, AgentPool.scaleUp, AgentPool.scaleDown, idle_of_oldestIdle]

theorem unstarted_of_idle (reports : a.state = a.place.report) (idle : a.state = .idle) : a.place = .unstarted := by
  rw [reports] at idle
  cases place : a.place <;> rw [place] at idle <;> trivial

/-- The agents are placed, and the one that is picked has not started. -/
def Picks (p : AgentPool) : Prop :=
  Placed p ∧ ∀ i a, p.oldest = some i → p.agents[i]? = some a → a.place = .unstarted

theorem picks_step {event : Event} (undisturbed : Undisturbed p event) (picks : Picks p) : Picks (p.step event) := by
  have placed := placed_step event picks.1
  refine ⟨placed, fun i a' picked there => ?_⟩
  obtain before | ⟨a, here, idle⟩ := oldest_step picked
  · obtain rfl | ⟨a, here, ⟨place, -⟩ | ⟨now, task, rfl, -⟩⟩ := step_agents there
    · rfl
    · rw [place, picks.2 i a before here]
    · exact absurd before undisturbed
  · cases here.symm.trans there
    exact unstarted_of_idle (placed _ (mem_of_getElem? there)) idle

theorem placed_start (config : PoolConfig) (now : Nat) : Placed (.start config now) :=
  fun _ member => eq_of_mem_replicate member ▸ rfl

/-- Agents report what they do exactly as long as none of them waits, and only one that has not started is picked. In a
run they always do and none is removed while it executes exactly if no agent gets to wait; and none is removed while it
executes if those that are picked do not go on. -/
theorem agents_report_iff (config : PoolConfig) (now : Nat) (events : List Event) :
    let p := pool.after (.start config now) events
    ((∀ a ∈ p.agents, a.Reports) ↔ ∀ a ∈ p.agents, a.place ≠ .waiting) ∧
      (∀ order i time, p.oldestIdle order = some (i, time) → ∃ a, p.agents[i]? = some a ∧ a.place = .unstarted) ∧
      (pool.Always (fun p => ∀ a ∈ p.agents, a.Reports) (.start config now) events ∧
          pool.Throughout Spares (.start config now) events ↔
        pool.Throughout Calm (.start config now) events) ∧
      (pool.Throughout Undisturbed (.start config now) events → pool.Throughout Spares (.start config now) events) := by
  have placed : Placed (pool.after (.start config now) events) :=
    Component.after_of_invariant (placed_start config now) fun _ => placed_step _
  have workless : Workless (.start config now) := fun _ member => eq_of_mem_replicate member ▸ (by decide)
  refine ⟨⟨fun reports a member waits => ?_, fun none a member => ?_⟩, fun order i time picked => ?_, ?_, ?_⟩
  · have idle := (reports a member).1 waits
    rw [placed a member, waits] at idle
    cases idle
  · refine ⟨fun waits => absurd waits (none a member), fun executes => ?_⟩
    rw [placed a member, executes]
    rfl
  · obtain ⟨a, there, idle⟩ := idle_of_oldestIdle picked
    exact ⟨a, there, unstarted_of_idle (placed a (mem_of_getElem? there)) idle⟩
  · have iff : pool.Always (fun p => ∀ a ∈ p.agents, a.Reports) (.start config now) events ↔
        pool.Throughout Calm (.start config now) events := by
      refine pool.always_iff_throughout_of_step (I := Workless) (fun p rests a member => ?_) ?_ workless
      · exact ⟨fun waits => absurd waits (rests a member).2.1, fun executes => absurd executes (rests a member).2.2⟩
      · exact fun p event rests => ⟨calm_of_reports fun a member => (rests a member).1, fun calm => workless_step calm rests⟩
    refine ⟨fun both => iff.mp both.1, fun calm => ⟨iff.mpr calm, ?_⟩⟩
    refine pool.throughout_of_throughout (fun _ _ rests calm => workless_step calm rests) ?_ workless calm
    rintro p (_ | _ | _ | _ | _ | _) rests <;> try trivial
    exact fun i a _ here => (rests a (mem_of_getElem? here)).2.2
  · intro undisturbed
    have picks : Picks (.start config now) := ⟨placed_start config now, nofun⟩
    refine pool.throughout_of_throughout (fun _ _ picks still => picks_step still picks) ?_ picks undisturbed
    rintro p (_ | _ | _ | _ | _ | _) picks <;> try trivial
    intro i a picked here
    rw [picks.2 i a picked here]
    decide

/-- A waiting agent is not idle and never picked; one that was picked may have a task by the time it is removed. -/
theorem waits_running :
    let p := pool.after (.start ⟨1, 2, 9, (0 < ·), 30⟩ 0) [.submit, .checkHealth 6000000000 [], .agent 0 0 false,
      .agent 0 0 false, .checkHealth 7000000000 [0, 1], .agent 1 0 false, .agent 1 0 false, .agent 1 0 true, .remove]
    p.oldestIdle [0, 1] = none ∧ p.agents.map (fun a => (a.place, a.state, a.inPool)) =
      [(.waiting, .running, true), (.executing, .running, false)] := by
  decide

end FlowRulZ.Agents
