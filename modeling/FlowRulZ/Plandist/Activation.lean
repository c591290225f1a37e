import FlowRulZ.Engine.Versions
import FlowRulZ.Plandist.Node

/-! # Activation

A cluster of nodes whose messages may be lost, late or delivered again.  `distributePlan`
publishes the activation when the wait for acks is over, however it has ended.  If the wait
has ended with a quorum of acks, they tell the truth: a node that has sent an ack holds the
version, and goes on holding it.
-/

open List

namespace FlowRulZ

namespace Engine

def Holds (e : Engine) (id : String) (version : UInt64) : Prop := version ∈ numbers (e.ruleOr id (-1))

instance (e : Engine) (id : String) (version : UInt64) : Decidable (e.Holds id version) :=
  inferInstanceAs (Decidable (version ∈ numbers _))

section

variable {e changed : Engine} {id : String} {version : UInt64}

theorem Holds.of_rules (holds : e.Holds id version) (same : changed.rules = e.rules) : changed.Holds id version := by
  unfold Holds ruleOr at *
  rwa [same]

theorem holds_setRule {r : Rule} (listed : version ∈ numbers r) : (e.setRule id r).Holds id version := by
  simpa [Holds, ruleOr, setRule] using listed

theorem Holds.setRule (holds : e.Holds id version) {id' : String} {r : Rule}
    (keeps : ∀ number ∈ numbers (e.ruleOr id' (-1)), number ∈ numbers r) : (e.setRule id' r).Holds id version := by
  by_cases here : id = id'
  · subst here
    exact holds_setRule (keeps version holds)
  · simpa [Holds, ruleOr, Engine.setRule, AList.lookup_insert_ne here] using holds

theorem numbers_ruleOr (e : Engine) (id : String) (activeVersion activeVersion' : Int) :
    numbers (e.ruleOr id activeVersion) = numbers (e.ruleOr id activeVersion') := by
  unfold ruleOr
  cases e.rules.lookup id <;> rfl

theorem mem_numbers_append {r : Rule} (listed : version ∈ numbers r) (vp : VersionedPlan) :
    version ∈ numbers (r.append vp) := by
  rw [numbers_append]
  exact mem_append_left _ listed

theorem holds_addVersion {env : Env} {dsl : String} {plan : Bytes}
    (added : (e.perform (.addVersion env id dsl plan version)).1 = some .added) :
    (e.perform (.addVersion env id dsl plan version)).2.Holds id version := by
  cases performed e (.addVersion env id dsl plan version) with
  | nilPointer panicked =>
    rw [panicked] at added
    cases added
  | appended _ committed =>
    refine Holds.of_rules ?_ committed.rules
    refine holds_setRule ?_
    simp [numbers_append]
  | @replaced _ _ _ _ _ i vp found committed =>
    refine Holds.of_rules ?_ committed.rules
    obtain ⟨there, same⟩ := find_at found
    refine holds_setRule ?_
    simp only [Option.elim_some]
    rw [numbers_replace there same.symm]
    exact mem_numbers.mpr ⟨vp, mem_of_getElem? there, same⟩
  | missing looksUp => cases looksUp

theorem Holds.perform (holds : e.Holds id version) {op : Op} (distributes : Plandist.Node.Distributes op) :
    (e.perform op).2.Holds id version := by
  cases performed e op with
  | rejected _ _ same | nilPointer _ same | missing _ _ same => exact holds.of_rules same.rules
  | @deployed _ id' _ _ _ committed =>
    refine Holds.of_rules ?_ committed.rules
    refine Holds.setRule holds fun number listed => ?_
    rw [numbers_ruleOr e id' (-1) 0] at listed
    exact mem_numbers_append listed _
  | appended _ committed =>
    refine Holds.of_rules ?_ committed.rules
    exact holds.setRule fun number listed => mem_numbers_append listed _
  | replaced found committed =>
    refine Holds.of_rules ?_ committed.rules
    obtain ⟨there, same⟩ := find_at found
    refine holds.setRule fun number listed => ?_
    simp only [Option.elim_some]
    rwa [numbers_replace there same.symm]
  | @promoted _ id' _ r _ _ known _ committed =>
    refine Holds.of_rules ?_ committed.rules
    refine holds.setRule fun number listed => ?_
    have here : e.ruleOr id' (-1) = r := by simp [ruleOr, known]
    rw [here] at listed
    exact listed
  | drained | removed | reloaded => exact distributes.elim

end

end Engine

namespace Plandist

/-- A call is for a rule and a version, and the node asks for the majority. -/
def IsFor (id : String) (version : UInt64) (w : Waiter) : Prop :=
  w.ruleID = id ∧ w.version = version ∧ w.requested = 0

def Knows (acks : Acks) : Goroutine → Prop
  | .waiting id version call | .activate id version (some call) =>
    ∃ w, acks.waiters[call]? = some w ∧ IsFor id version w
  | _ => True

section

variable {acks acks' : Acks}

theorem Knows.mono {goroutine : Goroutine} (knows : Knows acks goroutine)
    (kept : ∀ (i : Nat) w, acks.waiters[i]? = some w → ∃ w', acks'.waiters[i]? = some w' ∧ w'.call = w.call) :
    Knows acks' goroutine := by
  have call {id : String} {version : UInt64} {i : Nat} (known : ∃ w, acks.waiters[i]? = some w ∧ IsFor id version w) :
      ∃ w, acks'.waiters[i]? = some w ∧ IsFor id version w := by
    obtain ⟨w, there, own⟩ := known
    obtain ⟨w', there', same⟩ := kept i w there
    obtain ⟨rules, versions, quorums, -⟩ := Acks.Event.wait.inj same
    exact ⟨w', there', rules.trans own.1, versions.trans own.2.1, quorums.trans own.2.2⟩
  cases goroutine with
  | waiting id version i => exact call knows
  | activate id version i =>
    cases i with
    | none => trivial
    | some i => exact call knows
  | afterDeploy | afterPromote | publishPlan | waitForAcks | «over» => trivial

theorem knows_wait (ruleID : String) (version : UInt64) (alive : Option Nat) :
    Knows (acks.waitForAcks ruleID version 0 alive) (.waiting ruleID version acks.waiters.length) := by
  unfold Acks.waitForAcks
  cases resolveQuorum ruleID version 0 alive with
  | error outcome => exact ⟨_, getElem?_concat_length, rfl, rfl, rfl⟩
  | ok quorum => exact ⟨_, getElem?_concat_length, rfl, rfl, rfl⟩

end

/-- What holds in a node: its calls are accounted for and known to their goroutines. -/
structure InOrder (acked : String → UInt64 → String → Prop) (n : Node) : Prop where
  consistent : Consistent acked n.acks
  knows : ∀ goroutine ∈ n.goroutines, Knows n.acks goroutine

section

variable {acked : String → UInt64 → String → Prop} {n : Node}

section

variable (order : InOrder acked n)
include order

theorem InOrder.data (engine : Engine) (clusterTerm : UInt64) : InOrder acked { n with engine, clusterTerm } :=
  ⟨order.consistent, order.knows⟩

theorem InOrder.spawn {goroutine : Goroutine} (knows : Knows n.acks goroutine) : InOrder acked (n.spawn goroutine) := by
  refine ⟨order.consistent, fun other there => ?_⟩
  rcases mem_append.mp there with old | new
  · exact order.knows other old
  · cases mem_singleton.mp new
    exact knows

theorem InOrder.resume (k : Nat) {goroutine : Goroutine}
    (knows : Knows n.acks goroutine) : InOrder acked (n.resume k goroutine) := by
  refine ⟨order.consistent, fun other there => ?_⟩
  rcases mem_or_eq_of_mem_set there with old | rfl
  · exact order.knows other old
  · exact knows

theorem InOrder.acks {e : Acks.Event} (arrived : ∀ ack, e = .ack ack → acked ack.ruleID ack.version ack.nodeID) :
    InOrder acked { n with acks := n.acks.step e } :=
  ⟨consistent_step order.consistent arrived, fun goroutine there => (order.knows goroutine there).mono fun _ _ call =>
    (step_waiter order.consistent e call).imp fun _ kept => ⟨kept.1, kept.2.1⟩⟩

theorem InOrder.promote (env : Env) (id : String) (version : UInt64) (handled : Bool) :
    InOrder acked (n.promote env id version handled).1 := by
  rcases n.promote_cases env id version handled with promoted | failed
  · rw [promoted]
    refine InOrder.spawn (order.data _ n.clusterTerm) ?_
    trivial
  · rw [failed]
    exact order.data _ n.clusterTerm

theorem InOrder.go (k : Nat) (choice : Choice) : InOrder acked (n.go k choice).1 := by
  unfold Node.go
  split
  case h_1 id dsl plan version there =>
    split
    · refine InOrder.resume (order.data n.engine choice.token.term) k ?_
      split <;> trivial
    · exact order.resume k trivial
  case h_2 id version there =>
    refine order.resume k ?_
    split <;> trivial
  case h_3 id dsl plan version there =>
    split
    · exact order.resume k trivial
    · exact order.resume k trivial
  case h_4 id version there =>
    have called : InOrder acked { n with acks := n.acks.step (.wait id version 0 choice.alive) } := order.acks nofun
    exact called.resume k (knows_wait id version choice.alive)
  case h_5 id version call there =>
    have knows : Knows n.acks (.waiting id version call) := order.knows _ (mem_of_getElem? there)
    split
    · exact order.resume k knows
    · cases choice.expired with
      | true => exact order.acks (e := .expire call) nofun
      | false => exact order.acks (e := .wake call) nofun
  case h_6 id version call there => exact order.resume k trivial
  case h_7 => exact order

theorem InOrder.handle {event : Event} (arrived : ∀ am, event = .ack am → acked am.ruleID am.version am.nodeID) :
    InOrder acked (n.handle event).1 := by
  cases event with
  | deploy env id dsl =>
    rw [Node.handle, Node.deploy]
    dsimp only
    split
    · refine InOrder.spawn (order.data _ n.clusterTerm) ?_
      trivial
    · exact order.data _ n.clusterTerm
  | promote env id version => exact order.promote env id version false
  | deliver env sends pm =>
    have handled := n.handled env sends pm
    rw [Node.handle]
    generalize n.handlePlanMessage env sends pm = out at handled ⊢
    cases handled with
    | ignored => exact order
    | added | failed => exact order.data _ n.clusterTerm
    | promoted | notPromoted => exact order.promote env pm.ruleID pm.version true
  | ack am =>
    refine order.acks (e := .ack am) ?_
    rintro ack ⟨⟩
    exact arrived am rfl
  | becameLeader term => exact order.data n.engine term
  | go k choice => exact order.go k choice

theorem InOrder.mono {acked' : String → UInt64 → String → Prop}
    (more : ∀ r v node, acked r v node → acked' r v node) : InOrder acked' n :=
  ⟨order.consistent.mono more, order.knows⟩

end

/-- A node that sends an ack has added the version. -/
theorem holds_of_acked (n : Node) {event : Event} {am : AckMessage} (sent : .acked am ∈ (n.handle event).2) :
    am.nodeID = n.nodeID ∧ (n.handle event).1.engine.Holds am.ruleID am.version := by
  cases event with
  | deliver env sends pm =>
    have handled := n.handled env sends pm
    rw [Node.handle] at sent ⊢
    generalize n.handlePlanMessage env sends pm = out at handled sent ⊢
    cases handled with
    | ignored | failed | notPromoted => cases sent
    | added _ _ performed =>
      have added := Engine.holds_addVersion (congrArg Prod.fst performed)
      rw [performed] at added
      cases sends with
      | true =>
        obtain rfl : am = ⟨n.nodeID, pm.ruleID, pm.version, "ok"⟩ := by simpa using sent
        exact ⟨rfl, added⟩
      | false => simp at sent
    | promoted => simp at sent
  | go k choice =>
    simp only [Node.handle, Node.go] at sent
    repeat' split at sent
    all_goals simp at sent
  | deploy | promote | ack | becameLeader => cases sent

end

theorem resolveQuorum_majority {rule : String} {version : UInt64} {count : Nat} {quorum : Int}
    (resolved : resolveQuorum rule version 0 (some count) = .ok quorum) :
    1 < count ∧ quorum = ((count - 1) / 2 + 1 : Nat) := by
  by_cases several : 1 < count
  · refine ⟨several, ?_⟩
    simpa [resolveQuorum, several, eq_comm] using resolved
  · simp [resolveQuorum, several] at resolved

structure Cluster where
  nodes : String → Node
  sent : List Output := []

namespace Cluster

def arrives (c : Cluster) : Event → Bool
  | .deliver _ _ pm => .published pm ∈ c.sent
  | .ack am => .acked am ∈ c.sent
  | _ => true

def component (members : List String) : Component Cluster (String × Event) (String × Output) where
  handle c event :=
    if event.1 ∈ members ∧ c.arrives event.2 then
      let (n, outputs) := (c.nodes event.1).handle event.2
      (⟨Function.update c.nodes event.1 n, c.sent ++ outputs⟩, outputs.map (event.1, ·))
    else (c, [])

def start (engines : String → Engine) : Cluster where
  nodes id := { nodeID := id, engine := engines id }

def Holding (members : List String) (c : Cluster) (rule : String) (version : UInt64) (id : String) : Prop :=
  id ∈ members ∧ (c.nodes id).engine.Holds rule version

/-- Acks tell the truth, and the calls of every node count such acks. -/
structure Sound (members : List String) (c : Cluster) : Prop where
  nodeID : ∀ id, (c.nodes id).nodeID = id
  truthful : ∀ am, .acked am ∈ c.sent → c.Holding members am.ruleID am.version am.nodeID
  order : ∀ id, InOrder (c.Holding members) (c.nodes id)

section

variable {members : List String} {c : Cluster}

theorem nodeID_promote (n : Node) (env : Env) (id : String) (version : UInt64) (handled : Bool) :
    (n.promote env id version handled).1.nodeID = n.nodeID := by
  rcases n.promote_cases env id version handled with promoted | failed
  · rw [promoted]
    rfl
  · rw [failed]

theorem nodeID_handle (n : Node) (event : Event) : (n.handle event).1.nodeID = n.nodeID := by
  cases event with
  | deploy env id dsl =>
    rw [Node.handle, Node.deploy]
    dsimp only
    split <;> rfl
  | promote env id version => exact nodeID_promote n env id version false
  | deliver env sends pm =>
    have handled := n.handled env sends pm
    rw [Node.handle]
    generalize n.handlePlanMessage env sends pm = out at handled ⊢
    cases handled with
    | ignored | added | failed => rfl
    | promoted | notPromoted => exact nodeID_promote n env pm.ruleID pm.version true
  | ack | becameLeader => rfl
  | go k choice =>
    rw [Node.handle, Node.go]
    repeat' split
    all_goals rfl

theorem sound_handle (sound : Sound members c) (event : String × Event) :
    Sound members ((component members).handle c event).1 := by
  obtain ⟨id, event⟩ := event
  simp only [component]
  split_ifs with possible
  · obtain ⟨member, arrives⟩ := possible
    let c' : Cluster := ⟨Function.update c.nodes id ((c.nodes id).handle event).1, c.sent ++ ((c.nodes id).handle event).2⟩
    have own : c'.nodes id = ((c.nodes id).handle event).1 := Function.update_self ..
    have others (j : String) (other : j ≠ id) : c'.nodes j = c.nodes j := Function.update_of_ne other ..
    have more (rule : String) (version : UInt64) (j : String) (holding : c.Holding members rule version j) :
        c'.Holding members rule version j := by
      refine ⟨holding.1, ?_⟩
      by_cases here : j = id
      · subst here
        rw [own]
        rcases Node.engine_handle _ event with same | ⟨op, distributes, performed⟩
        · rw [same]
          exact holding.2
        · rw [performed]
          exact holding.2.perform distributes
      · rw [others j here]
        exact holding.2
    have arrived (am : AckMessage) (acks : event = .ack am) : c'.Holding members am.ruleID am.version am.nodeID := by
      subst acks
      exact more _ _ _ (sound.truthful am (of_decide_eq_true arrives))
    constructor
    · intro j
      by_cases here : j = id
      · subst here
        exact (congrArg Node.nodeID own).trans ((nodeID_handle _ event).trans (sound.nodeID j))
      · exact (congrArg Node.nodeID (others j here)).trans (sound.nodeID j)
    · intro am sent
      rcases mem_append.mp sent with before | now
      · exact more _ _ _ (sound.truthful am before)
      · obtain ⟨sender, holds⟩ := holds_of_acked (c.nodes id) now
        rw [sound.nodeID] at sender
        refine ⟨sender ▸ member, ?_⟩
        rw [sender, own]
        exact holds
    · intro j
      by_cases here : j = id
      · subst here
        have order := ((sound.order j).mono more).handle arrived
        rwa [← own] at order
      · have order := (sound.order j).mono more
        rwa [← others j here] at order
  · exact sound

variable (members) in
theorem sound_start (engines : String → Engine) : Sound members (start engines) where
  nodeID _ := rfl
  truthful := nofun
  order _ := ⟨consistent_empty _, nofun⟩

theorem sound_after (sound : Sound members c) (events : List (String × Event)) :
    Sound members ((component members).after c events) := by
  induction events generalizing c with
  | nil => exact sound
  | cons event events ih => exact ih (sound_handle sound event)

end

/-- The next action of a goroutine of `distributePlan` is `ActivatePlan`, after a call of `WaitForAcks`. -/
def Activates (n : Node) (rule : String) (version : UInt64) (w : Waiter) : Prop :=
  ∃ i, .activate rule version (some i) ∈ n.goroutines ∧ n.acks.waiters[i]? = some w

def holders (members : List String) (c : Cluster) (leader rule : String) (version : UInt64) : List String :=
  members.filter fun id => id ≠ leader ∧ (c.nodes id).engine.Holds rule version

/-- If the wait has not failed, was for a majority of at least the members, and has counted that many followers, then a
majority of the others holds the version. -/
theorem majority_holds (members : List String) (several : 1 < members.length) (engines : String → Engine)
    (events : List (String × Event)) (leader rule : String) (version : UInt64) {w : Waiter}
    (activates : Activates (((component members).after (start engines) events).nodes leader) rule version w)
    (acked : w.outcome = some .acked) (alive : ∃ count, w.alive = some count ∧ members.length ≤ count)
    (apart : Apart leader (w.counted.take w.quorum.toNat)) :
    (members.length - 1) / 2 + 1 ≤
      (holders members ((component members).after (start engines) events) leader rule version).length := by
  have sound := sound_after (sound_start members engines) events
  generalize (component members).after (start engines) events = c at activates sound ⊢
  obtain ⟨i, next, call⟩ := activates
  obtain ⟨count, known, all⟩ := alive
  obtain ⟨w', call', rfl, rfl, requested⟩ := (sound.order leader).knows _ next
  rw [call] at call'
  cases call'
  have tallied := (sound.order leader).consistent.tallied w (mem_of_getElem? call)
  rcases tallied.enough acked with ⟨-, few, le, same⟩ | ⟨resolved, enough⟩
  · rw [known] at same
    cases same
    omega
  rw [requested, known] at resolved
  have majority := resolveQuorum_majority resolved
  have listed : w.counted.take w.quorum.toNat ⊆ holders members c leader w.ruleID w.version := by
    intro node first
    obtain ⟨member, holds⟩ := tallied.genuine node (mem_of_mem_take first)
    refine mem_filter.mpr ⟨member, decide_eq_true ⟨?_, holds⟩⟩
    rintro rfl
    exact apart.2 first
  have length := (subperm_of_subset apart.1 listed).length_le
  rw [length_take] at length
  omega

def deploying : List (String × Event) :=
  let env : Env := { compile := fun _ _ => .ok ⟨[], 1⟩ }
  let leads : Choice := { token := ⟨true, 1⟩, alive := some 3 }
  [("a", .deploy env "r" "x"), ("a", .go 0 leads), ("a", .go 0 leads), ("a", .go 0 leads)]

def answered : List (String × Event) :=
  let env : Env := { compile := fun _ _ => .ok ⟨[], 1⟩ }
  let pm : PlanMessage := { type := .plan, ruleID := "r", version := 1, term := 1, dsl := "x", nodeID := "a" }
  [("b", .deliver env true pm), ("c", .deliver env true pm), ("a", .ack ⟨"b", "r", 1, "ok"⟩),
    ("a", .ack ⟨"c", "r", 1, "ok"⟩), ("a", .go 0 {}), ("a", .go 0 {})]

theorem majority_holds_answered :
    2 ≤ (holders ["a", "b", "c"] ((component ["a", "b", "c"]).after (start fun _ => { persistPath := "" })
      (deploying ++ answered)) "a" "r" 1).length :=
  majority_holds ["a", "b", "c"] (by decide) (fun _ => { persistPath := "" }) (deploying ++ answered) "a" "r" 1
    ⟨0, by decide, rfl⟩ rfl ⟨3, rfl, by decide⟩ ⟨by decide, by decide⟩

/-- The plan is lost and the wait runs out of time; the activation is published all the same, and nobody else holds the
version. -/
theorem activates_unheard :
    let c := (component ["a", "b", "c"]).after (start fun _ => { persistPath := "" })
      (deploying ++ [("a", .go 0 { expired := true }), ("a", .go 0 {})])
    (∃ w, Activates (c.nodes "a") "r" 1 w) ∧
      ("a", .published { type := .activate, ruleID := "r", version := 1, term := 1, nodeID := "a" }) ∈
        ((component ["a", "b", "c"]).handle c ("a", .go 0 {})).2 ∧
      holders ["a", "b", "c"] c "a" "r" 1 = [] := by
  refine ⟨⟨_, 0, by decide, rfl⟩, by decide, by decide⟩

end Cluster

end Plandist

end FlowRulZ
