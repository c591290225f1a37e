import FlowRulZ.Engine.History
import FlowRulZ.Plandist.Acks

/-! # Plan distribution

What a node does about plans: the engine with its two hooks, the goroutines that the hooks
start, the handlers of plan messages and of acks, and the term that the handler compares
with.  A goroutine goes on one action at a time; what it finds outside the node, and when
the time of a context is over, comes with the event.  The transport decides who receives
what is sent.
-/

namespace FlowRulZ.Plandist

inductive MessageType where
  | plan
  | activate
  | other
  deriving Repr, DecidableEq

structure PlanMessage where
  type : MessageType
  ruleID : String
  version : UInt64
  term : UInt64
  plan : Bytes := []
  dsl : String := ""
  nodeID : String
  deriving Repr, DecidableEq

structure LeadershipToken where
  leader : Bool
  term : UInt64
  deriving Repr, DecidableEq

def LeadershipToken.valid (token : LeadershipToken) : Bool := token.leader && decide (0 < token.term)

/-- Where a goroutine is in `handleEngineDeploy` and `distributePlan`, or in `handleEnginePromote` and
`distributeActivate`. -/
inductive Goroutine where
  | afterDeploy (id dsl : String) (plan : Bytes) (version : UInt64)
  /-- The hook of a promotion, made by the handler of plan messages or by a call from outside. -/
  | afterPromote (id : String) (version : UInt64) (handled : Bool)
  | publishPlan (id dsl : String) (plan : Bytes) (version : UInt64)
  | waitForAcks (id : String) (version : UInt64)
  | waiting (id : String) (version : UInt64) (call : Nat)
  | activate (id : String) (version : UInt64) (call : Option Nat)
  | over
  deriving Repr, DecidableEq

structure Choice where
  /-- `CaptureLeadershipToken` -/
  token : LeadershipToken := ⟨false, 0⟩
  /-- `ValidateLeadershipToken` -/
  validates : Bool := true
  sends : Bool := true
  alive : Option Nat := none
  expired : Bool := false
  deriving Repr, DecidableEq

structure Node where
  nodeID : String
  engine : Engine
  clusterTerm : UInt64 := 0
  acks : Acks := {}
  goroutines : List Goroutine := []

inductive Event where
  | deploy (env : Env) (id dsl : String)
  | promote (env : Env) (id : String) (version : UInt64)
  /-- A plan message is handled; its ack may fail to be sent. -/
  | deliver (env : Env) (sends : Bool) (pm : PlanMessage)
  | ack (am : AckMessage)
  /-- The callback of `SubscribeLeaderChanges`. -/
  | becameLeader (term : UInt64)
  | go (k : Nat) (choice : Choice)

inductive Output where
  | published (pm : PlanMessage)
  | acked (am : AckMessage)
  | applied (pm : PlanMessage)
  deriving Repr, DecidableEq

namespace Node

/-- `publishMessage`, with the term of the moment. -/
def message (n : Node) (type : MessageType) (ruleID : String) (version : UInt64) (plan : Bytes) (dsl : String) :
    PlanMessage :=
  { type, ruleID, version, term := n.clusterTerm, plan, dsl, nodeID := n.nodeID }

def spawn (n : Node) (goroutine : Goroutine) : Node :=
  { n with goroutines := n.goroutines ++ [goroutine] }

def resume (n : Node) (k : Nat) (goroutine : Goroutine) : Node :=
  { n with goroutines := n.goroutines.set k goroutine }

def deploy (n : Node) (env : Env) (id dsl : String) : Node :=
  let (reply, engine) := n.engine.perform (.deploy env id dsl)
  match reply with
  | some (.deployed plan version) => { n with engine }.spawn (.afterDeploy id dsl plan version)
  | _ => { n with engine }

/-- `Engine.Promote`, up to its hook, and whether it has succeeded. -/
def promote (n : Node) (env : Env) (id : String) (version : UInt64) (handled : Bool) : Node × Bool :=
  let (reply, engine) := n.engine.perform (.promote env id version)
  match reply with
  | some .promoted => ({ n with engine }.spawn (.afterPromote id version handled), true)
  | _ => ({ n with engine }, false)

def handlePlanMessage (n : Node) (env : Env) (sends : Bool) (pm : PlanMessage) : Node × List Output :=
  if pm.term < n.clusterTerm then (n, [])
  else match pm.type with
    | .plan =>
      let (reply, engine) := n.engine.perform (.addVersion env pm.ruleID pm.dsl pm.plan pm.version)
      match reply with
      | some .added =>
        ({ n with engine }, .applied pm :: if sends then [.acked ⟨n.nodeID, pm.ruleID, pm.version, "ok"⟩] else [])
      | _ => ({ n with engine }, [])
    | .activate =>
      let (n, promoted) := n.promote env pm.ruleID pm.version true
      (n, if promoted then [.applied pm] else [])
    | .other => (n, [])

def go (n : Node) (k : Nat) (choice : Choice) : Node × List Output :=
  match n.goroutines[k]? with
  | some (.afterDeploy id dsl plan version) =>
    if choice.token.valid then
      -- the term is set before the token is validated again
      let n := { n with clusterTerm := choice.token.term }
      (n.resume k (if choice.validates then .publishPlan id dsl plan version else .over), [])
    else (n.resume k .over, [])
  | some (.afterPromote id version _) =>
    (n.resume k (if choice.token.valid && choice.validates then .activate id version none else .over), [])
  | some (.publishPlan id dsl plan version) =>
    if choice.sends then
      (n.resume k (.waitForAcks id version), [.published (n.message .plan id version plan dsl)])
    else (n.resume k .over, [])
  | some (.waitForAcks id version) =>
    ({ n with acks := n.acks.waitForAcks id version 0 choice.alive }.resume k
      (.waiting id version n.acks.waiters.length), [])
  | some (.waiting id version call) =>
    match (n.acks.waiters[call]?).bind (·.outcome) with
    -- an error is only logged
    | some _ => (n.resume k (.activate id version (some call)), [])
    | none => ({ n with acks := if choice.expired then n.acks.expire call else n.acks.wake call }, [])
  | some (.activate id version _) =>
    (n.resume k .over, if choice.sends then [.published (n.message .activate id version [] "")] else [])
  | _ => (n, [])

def handle (n : Node) : Event → Node × List Output
  | .deploy env id dsl => (n.deploy env id dsl, [])
  | .promote env id version => ((n.promote env id version false).1, [])
  | .deliver env sends pm => n.handlePlanMessage env sends pm
  | .ack am => ({ n with acks := n.acks.handleAck am }, [])
  | .becameLeader term => ({ n with clusterTerm := term }, [])
  | .go k choice => n.go k choice

def component : Component Node Event Output where
  handle := handle

section

variable (n : Node) (env : Env) (id : String) (version : UInt64)

inductive Handled (sends : Bool) (pm : PlanMessage) : Node × List Output → Prop where
  | ignored : Handled sends pm (n, [])
  | added {engine : Engine} : n.clusterTerm ≤ pm.term → pm.type = .plan →
      n.engine.perform (.addVersion env pm.ruleID pm.dsl pm.plan pm.version) = (some .added, engine) →
      Handled sends pm ({ n with engine },
        .applied pm :: if sends then [.acked ⟨n.nodeID, pm.ruleID, pm.version, "ok"⟩] else [])
  | failed {reply : Option Reply} {engine : Engine} : n.clusterTerm ≤ pm.term → pm.type = .plan →
      n.engine.perform (.addVersion env pm.ruleID pm.dsl pm.plan pm.version) = (reply, engine) →
      reply ≠ some .added → Handled sends pm ({ n with engine }, [])
  | promoted : n.clusterTerm ≤ pm.term → pm.type = .activate → (n.promote env pm.ruleID pm.version true).2 = true →
      Handled sends pm ((n.promote env pm.ruleID pm.version true).1, [.applied pm])
  | notPromoted : n.clusterTerm ≤ pm.term → pm.type = .activate → (n.promote env pm.ruleID pm.version true).2 = false →
      Handled sends pm ((n.promote env pm.ruleID pm.version true).1, [])

theorem handled (sends : Bool) (pm : PlanMessage) : Handled n env sends pm (n.handlePlanMessage env sends pm) := by
  unfold handlePlanMessage
  by_cases older : pm.term < n.clusterTerm
  · rw [if_pos older]
    exact .ignored
  rw [if_neg older]
  have current : n.clusterTerm ≤ pm.term := UInt64.not_lt.mp older
  cases type : pm.type with
  | plan =>
    cases performed : n.engine.perform (.addVersion env pm.ruleID pm.dsl pm.plan pm.version) with
    | mk reply engine =>
      by_cases added : reply = some .added
      · subst added
        exact .added current type performed
      · have failed : Handled n env sends pm ({ n with engine }, []) :=
          .failed current type performed added
        dsimp only
        split
        · exact absurd rfl added
        · exact failed
  | activate =>
    cases promoted : (n.promote env pm.ruleID pm.version true).2 with
    | true => simpa [promoted] using Handled.promoted current type promoted
    | false => simpa [promoted] using Handled.notPromoted current type promoted
  | other => exact .ignored

theorem promote_cases (handled : Bool) : n.promote env id version handled =
        ({ n with engine := (n.engine.perform (.promote env id version)).2 }.spawn (.afterPromote id version handled),
          true) ∨
      n.promote env id version handled = ({ n with engine := (n.engine.perform (.promote env id version)).2 }, false) := by
  unfold promote
  dsimp only
  split
  · exact .inl rfl
  · exact .inr rfl

theorem engine_promote (handled : Bool) :
    (n.promote env id version handled).1.engine = (n.engine.perform (.promote env id version)).2 := by
  rcases n.promote_cases env id version handled with promoted | failed
  · rw [promoted]
    rfl
  · rw [failed]

/-- The operations that plan distribution performs take no version away. -/
def Distributes : Engine.Op → Prop
  | .deploy .. | .addVersion .. | .promote .. => True
  | _ => False

theorem engine_handle (event : Event) : (n.handle event).1.engine = n.engine ∨
      ∃ op, Distributes op ∧ (n.handle event).1.engine = (n.engine.perform op).2 := by
  cases event with
  | deploy env id dsl => exact .inr ⟨.deploy env id dsl, trivial, by
      simp only [handle, deploy]
      split <;> rfl⟩
  | promote env id version => exact .inr ⟨.promote env id version, trivial, n.engine_promote env id version false⟩
  | deliver env sends pm =>
    have handled := n.handled env sends pm
    rw [handle]
    generalize n.handlePlanMessage env sends pm = out at handled ⊢
    let add : Engine.Op := .addVersion env pm.ruleID pm.dsl pm.plan pm.version
    let promote : Engine.Op := .promote env pm.ruleID pm.version
    have promotes := n.engine_promote env pm.ruleID pm.version true
    cases handled with
    | ignored => exact .inl rfl
    | added _ _ performed => exact .inr ⟨add, trivial, (congrArg Prod.snd performed).symm⟩
    | failed _ _ performed _ => exact .inr ⟨add, trivial, (congrArg Prod.snd performed).symm⟩
    | promoted _ _ _ => exact .inr ⟨promote, trivial, promotes⟩
    | notPromoted _ _ _ => exact .inr ⟨promote, trivial, promotes⟩
  | go k choice =>
    left
    simp only [handle, go]
    repeat' split
    all_goals rfl
  | ack | becameLeader => exact .inl rfl

end

end Node

end FlowRulZ.Plandist
