import FlowRulZ.Cluster.Gossip

/-! # Restarts of a gossiping node

The epoch of a node counts its `SetState` calls, and only in memory.  A node that restarts begins at
zero again, while its peers may still hold, and relay, a state of an earlier incarnation with a higher
epoch.
-/

namespace FlowRulZ.Cluster

open List

open Gossiper Newest

/-- A message on its way. The network may lose it, and deliver it any number of times. -/
structure Sent where
  peer : String
  msg : GossipMessage
  /-- Which incarnation of the sender sent it. -/
  incarnation : Nat

/-- A node. Only the gossiper is there in the code. -/
structure Member where
  gossiper : Gossiper
  incarnation : Nat := 0
  had : List GossipState
  handled : List Sent := []

structure World where
  members : String → Member
  sent : List Sent := []

inductive Event where
  | restart (node address : String)
  | setState (node : String) (term : UInt64)
  /-- A map has no fixed order. -/
  | shuffle (node : String) (states : AList fun _ : String => GossipState)
  | doPush (node : String) (peers : List String)
  | doSync (node peer : String)
  | deliver (number : Nat)

namespace World

def started (node address : String) (incarnation : Nat) : Member where
  gossiper := { newGossiper node address with onNodeJoin := true }
  incarnation := incarnation
  had := [{ nodeID := node, address }]

def start (addresses : String → String) : World where
  members node := started node (addresses node) 0

variable (w : World)

def put (node : String) (m : Member) (messages : List (String × GossipMessage)) : World where
  members := Function.update w.members node m
  sent := w.sent ++ messages.map fun (peer, msg) => ⟨peer, msg, m.incarnation⟩

def restart (node address : String) : World :=
  w.put node (started node address ((w.members node).incarnation + 1)) []

def setState (node : String) (term : UInt64) : World :=
  let m := w.members node
  let g := m.gossiper.setState term
  w.put node { m with gossiper := g, had := m.had ++ [g.myState] } []

def shuffle (node : String) (states : AList fun _ : String => GossipState) : World :=
  let m := w.members node
  if states.entries.Perm m.gossiper.states.entries then
    w.put node { m with gossiper := { m.gossiper with states } } []
  else w

def doPush (node : String) (peers : List String) : World :=
  let m := w.members node
  w.put node m (peers.map (·, ⟨.push, m.gossiper.nodeID, m.gossiper.allStates, ∅⟩))

def doSync (node peer : String) : World :=
  let m := w.members node
  w.put node m [(peer, ⟨.pullReq, m.gossiper.nodeID, [], m.gossiper.epochs⟩)]

def published (effects : List Effect) : List (String × GossipMessage) :=
  effects.filterMap fun
    | .join _ => none
    | .publish peer msg => some (peer, msg)

def receive (sent : Sent) : World :=
  let m := w.members sent.peer
  let handled := m.gossiper.handleGossipMessage sent.msg
  w.put sent.peer { m with gossiper := handled.1, handled := m.handled ++ [sent] } (published handled.2)

end World

def world : Component World Event Empty where
  handle w
    | .restart node address => (w.restart node address, [])
    | .setState node term => (w.setState node term, [])
    | .shuffle node states => (w.shuffle node states, [])
    | .doPush node peers => (w.doPush node peers, [])
    | .doSync node peer => (w.doSync node peer, [])
    | .deliver number =>
      match w.sent[number]? with
      | none => (w, [])
      | some sent => (w.receive sent, [])

namespace World

variable (w : World) (node peer : String)

/-- The address and the term of a state are those of the current incarnation. -/
def Current (state : GossipState) : Prop :=
  ∃ own ∈ (w.members node).had, state.address = own.address ∧ state.term = own.term

instance (state : GossipState) : Decidable (w.Current node state) :=
  inferInstanceAs (Decidable (∃ own ∈ (w.members node).had, _))

/-- A peer has handled a push of the current incarnation. -/
def Pushed : Prop :=
  ∃ sent ∈ (w.members peer).handled, sent.msg.type = .push ∧ sent.msg.sender = node ∧
    sent.incarnation = (w.members node).incarnation

instance : Decidable (w.Pushed node peer) := inferInstanceAs (Decidable (∃ sent ∈ (w.members peer).handled, _))

/-- What a peer has stored for a node is of the current incarnation. -/
def Visible : Prop := ∃ state, (w.members peer).gossiper.states.lookup node = some state ∧ w.Current node state

/-- The states of a node that a peer has received, one after the other. -/
def heard : List GossipState := received node ((w.members peer).handled.map Sent.msg)

/-- A push of a current incarnation has one of its states. -/
structure Proper (sent : Sent) : Prop where
  incarnation : sent.incarnation ≤ (w.members sent.msg.sender).incarnation
  pushed : sent.msg.type = .push → sent.incarnation = (w.members sent.msg.sender).incarnation →
    ∃ s ∈ sent.msg.states, s.nodeID = sent.msg.sender ∧ s ∈ (w.members sent.msg.sender).had

structure Runs (node : String) (m : Member) : Prop where
  nodeID : m.gossiper.nodeID = node
  myState : m.gossiper.myState.nodeID = node
  own : m.gossiper.myState ∈ m.had
  stored : ∀ key, key ≠ node →
    m.gossiper.states.lookup key = newest GossipState.rank (received key (m.handled.map Sent.msg))

structure Valid : Prop where
  runs : ∀ node, Runs node (w.members node)
  sent : ∀ sent ∈ w.sent, w.Proper sent
  handled : ∀ peer, ∀ sent ∈ (w.members peer).handled, w.Proper sent

variable {w node peer} {sent : Sent}

theorem Runs.started (address : String) (incarnation : Nat) : Runs node (started node address incarnation) where
  nodeID := rfl
  myState := rfl
  own := List.mem_singleton_self _
  stored _ _ := rfl

theorem Valid.start (addresses : String → String) : (start addresses).Valid where
  runs node := Runs.started (addresses node) 0
  sent _ member := absurd member List.not_mem_nil
  handled _ _ member := absurd member not_mem_nil

@[simp, grind =]
theorem put_self {m : Member} {messages : List (String × GossipMessage)} : (w.put node m messages).members node = m :=
  Function.update_self ..

theorem put_of_ne {m : Member} {messages : List (String × GossipMessage)} (other : peer ≠ node) :
    (w.put node m messages).members peer = w.members peer :=
  Function.update_of_ne other ..

/-- A node goes on: it has lost own states only if it restarted, and its messages are proper. -/
theorem Valid.put (valid : w.Valid) {m : Member} {messages : List (String × GossipMessage)} (runs : Runs node m)
    (later : (w.members node).incarnation < m.incarnation ∨
      (w.members node).incarnation = m.incarnation ∧ (w.members node).had ⊆ m.had)
    (handled : ∀ sent ∈ m.handled, sent ∈ (w.members node).handled ∨ sent ∈ w.sent)
    (proper : ∀ peer msg, (peer, msg) ∈ messages → msg.sender = node ∧
      (msg.type = .push → ∃ s ∈ msg.states, s.nodeID = node ∧ s ∈ m.had)) : (w.put node m messages).Valid := by
  have still {sent : Sent} (old : w.Proper sent) : (w.put node m messages).Proper sent := by
    have ⟨incarnation, pushed⟩ := old
    by_cases same : sent.msg.sender = node
    · constructor <;> grind
    · constructor <;> simpa only [put_of_ne same]
  refine ⟨fun other => ?_, fun sent member => ?_, fun peer sent member => ?_⟩
  · by_cases same : other = node
    · subst same
      simpa using runs
    · simpa only [put_of_ne same] using valid.runs other
  · rcases mem_append.mp member with old | new
    · exact still (valid.sent sent old)
    · obtain ⟨⟨peer, msg⟩, listed, rfl⟩ := mem_map.mp new
      obtain ⟨rfl, own⟩ := proper peer msg listed
      exact ⟨by simp, fun push _ => by simpa using own push⟩
  · by_cases same : peer = node
    · subst same
      rcases handled sent (by simpa using member) with old | new
      · exact still (valid.handled peer sent old)
      · exact still (valid.sent sent new)
    · exact still (valid.handled peer sent (by simpa only [put_of_ne same] using member))

theorem mem_published {g : Gossiper} {msg answer : GossipMessage} {peer : String}
    (member : (peer, answer) ∈ published (g.handleGossipMessage msg).2) :
    answer.type = .pullResp ∧ answer.sender = g.nodeID := by
  have joins (calls : List Join) : published (calls.map .join) = [] := by
    simp [published]
  unfold handleGossipMessage at member
  split at member
  · cases member
  · split at member
    case h_3 =>
      cases mem_singleton.mp member
      exact ⟨rfl, rfl⟩
    all_goals first
      | rw [joins] at member; cases member
      | cases member

theorem Runs.receive {m : Member} (runs : Runs node m) (sent : Sent) :
    Runs node { m with gossiper := (m.gossiper.handleGossipMessage sent.msg).1, handled := m.handled ++ [sent] } := by
  obtain ⟨nodeID, myState, -⟩ := updates_frame (g := m.gossiper) sent.msg.brings
  rw [handleGossipMessage_fst]
  refine ⟨nodeID.trans runs.nodeID, by rw [myState, runs.myState], by rw [myState]; exact runs.own, fun key other => ?_⟩
  rw [updates_lookup, if_neg (by rwa [runs.nodeID]), runs.stored key other, ← newest_append]
  simp [received]

theorem Valid.after (addresses : String → String) (events : List Event) :
    (world.after (World.start addresses) events).Valid := by
  refine Component.after_of_invariant (P := World.Valid) (Valid.start addresses) ?_
  intro w e _ valid
  have still (node : String) : (w.members node).incarnation = (w.members node).incarnation ∧
    (w.members node).had ⊆ (w.members node).had := ⟨rfl, List.Subset.refl _⟩
  cases e with
  | restart node address =>
    exact valid.put (Runs.started address _) (.inl (Nat.lt_succ_self _)) (by simp [started]) (by simp)
  | setState node term =>
    have runs := valid.runs node
    exact valid.put ⟨runs.nodeID, runs.myState, by simp, runs.stored⟩ (.inr ⟨rfl, by simp⟩) (fun _ => .inl) (by simp)
  | shuffle node states =>
    have runs := valid.runs node
    unfold world World.shuffle
    dsimp only
    split
    next same =>
      refine valid.put ⟨runs.nodeID, runs.myState, runs.own, fun key other => ?_⟩ (.inr (still node)) (fun _ => .inl) (by simp)
      exact (AList.perm_lookup same).trans (runs.stored key other)
    next => exact valid
  | doPush node peers =>
    have runs := valid.runs node
    refine valid.put runs (.inr (still node)) (fun _ => .inl) fun peer msg member => ?_
    obtain ⟨_, -, same⟩ := mem_map.mp member
    cases same
    exact ⟨runs.nodeID, fun _ => ⟨_, mem_cons_self, runs.myState, runs.own⟩⟩
  | doSync node peer =>
    exact valid.put (valid.runs node) (.inr (still node)) (fun _ => .inl) (by simp [(valid.runs node).nodeID])
  | deliver number =>
    change World.Valid (match w.sent[number]? with | none => (w, []) | some sent => (w.receive sent, ([] : List Empty))).1
    cases found : w.sent[number]? with
    | none => exact valid
    | some sent =>
      refine valid.put ((valid.runs sent.peer).receive sent) (.inr (still sent.peer)) (fun other member => ?_) ?_
      · rcases mem_append.mp member with old | new
        · exact .inl old
        · exact .inr (mem_singleton.mp new ▸ mem_of_getElem? found)
      · intro peer msg listed
        obtain ⟨type, sender⟩ := mem_published listed
        exact ⟨sender.trans (valid.runs sent.peer).nodeID, by simp [type]⟩

theorem Valid.heard_of_pushed (valid : w.Valid) (named : node ≠ "") (pushed : w.Pushed node peer) :
    ∃ s, s ∈ w.heard node peer := by
  obtain ⟨sent, handled, push, rfl, current⟩ := pushed
  obtain ⟨s, member, same, -⟩ := (valid.handled peer sent handled).pushed push current
  have brought : s ∈ sent.msg.brings := by
    rw [GossipMessage.brings, if_neg named, push]
    exact member
  exact ⟨s, mem_filter.mpr ⟨mem_flatMap.mpr ⟨_, mem_map_of_mem handled, brought⟩, by simpa using same⟩⟩

end World

/-- A peer that has handled a push of the current incarnation has stored its address and term unless a
state of an earlier one prevails: it has received none before with as high an epoch and term, and none
after with a higher one. -/
theorem restart_visible_iff (addresses : String → String) (events : List Event) (node peer : String)
    (named : node ≠ "") (other : node ≠ peer)
    (pushed : (world.after (World.start addresses) events).Pushed node peer) :
    let w := world.after (World.start addresses) events
    (w.Visible node peer ↔ ∀ before x after, w.heard node peer = before ++ x :: after → ¬ w.Current node x →
          (∃ y ∈ before, x.rank ≤ y.rank) ∨ ∃ y ∈ after, x.rank < y.rank) ∧
      -- in particular if one of the states that it has received is newer than all those of earlier incarnations
      ∀ y ∈ w.heard node peer, (∀ x ∈ w.heard node peer, ¬ w.Current node x → x.rank < y.rank) →
        w.Visible node peer := by
  intro w
  have valid : w.Valid := World.Valid.after addresses events
  obtain ⟨s, heard⟩ := valid.heard_of_pushed named pushed
  obtain ⟨kept, found⟩ := exists_newest GossipState.rank heard
  have stored : (w.members peer).gossiper.states.lookup node = some kept :=
    ((valid.runs peer).stored node other).trans found
  have visible : w.Visible node peer ↔ w.Current node kept := by
    simp [World.Visible, stored]
  rw [visible]
  refine ⟨⟨?_, ?_⟩, ?_⟩
  · intro current before x after split stale
    by_contra prevails
    push Not at prevails
    have same : newest GossipState.rank (w.heard node peer) = some x :=
      newest_eq_some.mpr ⟨before, after, split, prevails.1, prevails.2⟩
    rw [found] at same
    cases same
    exact stale current
  · intro outranked
    by_contra stale
    obtain ⟨before, after, split, lower, others⟩ := newest_eq_some.mp found
    rcases outranked before kept after split stale with ⟨y, early, high⟩ | ⟨y, late, high⟩
    · exact absurd (lower y early) (not_lt.mpr high)
    · exact absurd high (not_lt.mpr (others y late))
  · intro y received higher
    by_contra stale
    have low := higher kept (mem_of_newest found) stale
    exact absurd low (not_lt.mpr (rank_le_newest found received))

theorem restart_visible_two_calls : (world.after (World.start fun _ => "old:9000")
      [.setState "a" 1, .doPush "a" ["b"], .deliver 0, .restart "a" "new:9000", .setState "a" 1, .setState "a" 1,
        .doPush "a" ["b"], .deliver 1]).Visible "a" "b" :=
  (restart_visible_iff (fun _ => "old:9000")
    [.setState "a" 1, .doPush "a" ["b"], .deliver 0, .restart "a" "new:9000", .setState "a" 1, .setState "a" 1,
      .doPush "a" ["b"], .deliver 1] "a" "b" (by decide) (by decide) (by decide)).2
    ⟨"a", "new:9000", 1, 2⟩ (by decide) (by decide)

/-- The first incarnation has called `SetState` twice and the second one once, at another address. -/
theorem restart_hidden :
    let w := world.after (World.start fun _ => "old:9000")
      [.setState "a" 1, .setState "a" 1, .doPush "a" ["b"], .deliver 0, .restart "a" "new:9000", .setState "a" 2,
        .doPush "a" ["b"], .deliver 1]
    w.Pushed "a" "b" ∧ (w.members "b").gossiper.states.lookup "a" = some ⟨"a", "old:9000", 1, 2⟩ ∧ ¬ w.Visible "a" "b" := by
  intro w
  have stored : (w.members "b").gossiper.states.lookup "a" = some ⟨"a", "old:9000", 1, 2⟩ := by decide
  have stale : ¬ w.Current "a" ⟨"a", "old:9000", 1, 2⟩ := by decide
  refine ⟨by decide, stored, ?_⟩
  rintro ⟨state, found, current⟩
  cases found
  exact stale current

end FlowRulZ.Cluster
