import FlowRulZ.Lib.Component
import FlowRulZ.Lib.Newest
import Mathlib.Data.List.AList
import Mathlib.Data.Prod.Lex

/-! # Gossip

A `Gossiper` keeps what it has heard of every other node.  Of the states that it receives for a
node the one with the highest epoch is kept, and of several with that epoch the one with the
highest term.  So it does not matter in which order messages come, nor how often.
-/

namespace FlowRulZ.Cluster

open List

structure GossipState where
  nodeID : String
  address : String
  term : UInt64 := 0
  epoch : UInt64 := 0
  deriving Repr, DecidableEq

inductive MessageType where
  | push
  | pullReq
  | pullResp
  | other (text : String)
  deriving Repr, DecidableEq

structure GossipMessage where
  type : MessageType
  sender : String
  states : List GossipState := []
  epochs : AList fun _ : String => UInt64 := ∅

structure Gossiper where
  nodeID : String
  states : AList fun _ : String => GossipState := ∅
  myState : GossipState
  /-- There is a function to call when a node joins. -/
  onNodeJoin : Bool := false

structure Join where
  nodeID : String
  address : String
  deriving Repr, DecidableEq

inductive Effect where
  | join (call : Join)
  | publish (peer : String) (msg : GossipMessage)

def newGossiper (nodeID grpcAddr : String) : Gossiper where
  nodeID := nodeID
  myState := { nodeID, address := grpcAddr }

namespace Gossiper

variable (g : Gossiper)

def setState (term : UInt64) : Gossiper :=
  { g with myState := { g.myState with epoch := g.myState.epoch + 1, term } }

def updateState (nodeID : String) (state : GossipState) : Gossiper × List Join :=
  let stored := { g with states := g.states.insert nodeID state }
  match g.states.lookup nodeID with
  | none => (stored, if g.onNodeJoin then [⟨state.nodeID, state.address⟩] else [])
  | some existing =>
    if existing.epoch < state.epoch ∨ state.epoch = existing.epoch ∧ existing.term < state.term then (stored, [])
    else (g, [])

/-- A round of the loop over the states of a message. -/
def receive (state : GossipState) : Gossiper × List Join :=
  if state.nodeID = g.nodeID then (g, []) else g.updateState state.nodeID state

def updates : Component Gossiper GossipState Join where
  handle := receive

/-- The states of a push; those behind the first are in the order of the map. -/
def allStates : List GossipState := g.myState :: g.states.entries.map (·.2)

def epochs : AList fun _ : String => UInt64 :=
  g.states.entries.foldl (fun epochs s => AList.insert s.1 s.2.epoch epochs) ((∅ : AList _).insert g.nodeID g.myState.epoch)

/-- The other side has an older state of a node, or none. -/
def missing (epochs : AList fun _ : String => UInt64) (nodeID : String) (state : GossipState) : Bool :=
  match epochs.lookup nodeID with
  | none => true
  | some e => e < state.epoch

def missingStates (epochs : AList fun _ : String => UInt64) : List GossipState :=
  (if missing epochs g.nodeID g.myState then [g.myState] else []) ++
    (g.states.entries.filter fun s => s.1 ≠ g.nodeID && missing epochs s.1 s.2).map (·.2)

def handleGossipMessage (msg : GossipMessage) : Gossiper × List Effect :=
  if msg.sender = "" then (g, [])
  else
    match msg.type with
    | .push | .pullResp => ((updates.run g msg.states).1, (updates.run g msg.states).2.map .join)
    | .pullReq => (g, [.publish msg.sender ⟨.pullResp, g.nodeID, g.missingStates msg.epochs, ∅⟩])
    | .other _ => (g, [])

def gossip : Component Gossiper GossipMessage Effect where
  handle := handleGossipMessage

end Gossiper

/-- Epochs come first, then terms. -/
def GossipState.rank (s : GossipState) : ℕ ×ₗ ℕ := toLex (s.epoch.toNat, s.term.toNat)

/-- The states that a message brings; one without a sender is rejected. -/
def GossipMessage.brings (msg : GossipMessage) : List GossipState :=
  if msg.sender = "" then []
  else
    match msg.type with
    | .push | .pullResp => msg.states
    | .pullReq | .other _ => []

def received (node : String) (messages : List GossipMessage) : List GossipState :=
  (messages.flatMap GossipMessage.brings).filter (·.nodeID = node)

namespace Gossiper

open Newest

variable {g : Gossiper} {node : String}

open GossipState

theorem rank_lt_iff {s t : GossipState} :
    s.rank < t.rank ↔ s.epoch < t.epoch ∨ t.epoch = s.epoch ∧ s.term < t.term := by
  rw [rank, rank, Prod.Lex.toLex_lt_toLex, UInt64.lt_iff_toNat_lt, UInt64.lt_iff_toNat_lt, ← UInt64.toNat_inj, eq_comm]

theorem receive_frame (state : GossipState) :
    (g.receive state).1.nodeID = g.nodeID ∧ (g.receive state).1.myState = g.myState ∧
      (g.receive state).1.onNodeJoin = g.onNodeJoin := by
  grind [receive, updateState]

/-- The newer one of what is known and what is received is kept, except for the node itself. -/
theorem receive_lookup (state : GossipState) : (g.receive state).1.states.lookup node =
      if state.nodeID = node ∧ node ≠ g.nodeID then keep rank (g.states.lookup node) state
      else g.states.lookup node := by
  unfold receive updateState
  by_cases here : state.nodeID = node
  · cases known : g.states.lookup state.nodeID <;> grind [keep, rank_lt_iff, AList.lookup_insert]
  · cases known : g.states.lookup state.nodeID <;> grind [AList.lookup_insert_ne]

theorem receive_joins (state : GossipState) : (g.receive state).2 =
      if state.nodeID ≠ g.nodeID ∧ g.states.lookup state.nodeID = none ∧ g.onNodeJoin then
        [⟨state.nodeID, state.address⟩]
      else [] := by
  grind [receive, updateState]

theorem updates_lookup (states : List GossipState) : (updates.after g states).states.lookup node =
      if node = g.nodeID then g.states.lookup node
      else (states.filter (·.nodeID = node)).foldl (keep rank) (g.states.lookup node) := by
  induction states generalizing g with
  | nil => exact (ite_self _).symm
  | cons state states ih =>
    have later := ih (g := (g.receive state).1)
    rw [receive_lookup, (receive_frame state).1] at later
    refine later.trans ?_
    by_cases here : state.nodeID = node <;> by_cases own : node = g.nodeID <;> simp [here, own]

theorem updates_frame (states : List GossipState) :
    (updates.after g states).nodeID = g.nodeID ∧ (updates.after g states).myState = g.myState ∧
      (updates.after g states).states.lookup g.nodeID = g.states.lookup g.nodeID := by
  obtain ⟨same, own⟩ : (updates.after g states).nodeID = g.nodeID ∧ (updates.after g states).myState = g.myState := by
    refine Component.after_of_invariant (P := fun now : Gossiper => now.nodeID = g.nodeID ∧ now.myState = g.myState)
      ⟨rfl, rfl⟩ fun {now state} _ frame => ?_
    obtain ⟨same, own, -⟩ := receive_frame (g := now) state
    exact ⟨same.trans frame.1, own.trans frame.2⟩
  exact ⟨same, own, by rw [updates_lookup, if_pos rfl]⟩

theorem updates_newest (other : node ≠ g.nodeID) (fresh : g.states = ∅) (states : List GossipState) :
    (updates.after g states).states.lookup node = newest rank (states.filter (·.nodeID = node)) := by
  rw [updates_lookup, if_neg other, fresh]
  rfl

theorem keep_ne_none (kept : Option GossipState) (state : GossipState) : keep rank kept state ≠ none := by
  cases kept <;> grind [keep]

/-- A node joins when a state of it comes for the first time. -/
theorem updates_joins (joins : g.onNodeJoin = true) (states : List GossipState) :
    ((updates.run g states).2.map Join.nodeID).count node =
      if node ≠ g.nodeID ∧ g.states.lookup node = none ∧ ∃ state ∈ states, state.nodeID = node then 1 else 0 := by
  induction states generalizing g with
  | nil => simp
  | cons state states ih =>
    obtain ⟨same, -, joins'⟩ := receive_frame (g := g) state
    have later := ih (g := (g.receive state).1) (joins'.trans joins)
    change (((g.receive state).2 ++ (updates.run (g.receive state).1 states).2).map Join.nodeID).count node = _
    rw [map_append, count_append, later, receive_joins, same, receive_lookup]
    by_cases here : state.nodeID = node
    · subst here
      by_cases own : state.nodeID = g.nodeID <;> cases g.states.lookup state.nodeID <;>
        simp [own, joins, keep_ne_none]
    · simp [here]
      grind

theorem handleGossipMessage_fst (msg : GossipMessage) : (g.handleGossipMessage msg).1 = updates.after g msg.brings := by
  unfold handleGossipMessage GossipMessage.brings
  split
  · rfl
  · cases msg.type <;> rfl

theorem gossip_run (messages : List GossipMessage) (merging : ∀ msg ∈ messages, msg.type = .push ∨ msg.type = .pullResp) :
    gossip.run g messages = ((updates.run g (messages.flatMap GossipMessage.brings)).1,
        (updates.run g (messages.flatMap GossipMessage.brings)).2.map Effect.join) := by
  induction messages generalizing g with
  | nil => rfl
  | cons msg messages ih =>
    have joins : (g.handleGossipMessage msg).2 = (updates.run g msg.brings).2.map Effect.join := by
      unfold handleGossipMessage GossipMessage.brings
      split
      · rfl
      · rcases merging msg mem_cons_self with push | response
        · rw [push]
        · rw [response]
    have later := ih (g := updates.after g msg.brings) fun other member => merging other (mem_cons_of_mem _ member)
    change ((gossip.run (g.handleGossipMessage msg).1 messages).1,
      (g.handleGossipMessage msg).2 ++ (gossip.run (g.handleGossipMessage msg).1 messages).2) = _
    rw [handleGossipMessage_fst, joins, later, flatMap_cons, Component.run_append, map_append]

/-- A gossiper with a state of its own that has not heard of any other node. -/
def fresh (own : GossipState) : Gossiper where
  nodeID := own.nodeID
  myState := own
  onNodeJoin := true

theorem newest_mono {first rest : List GossipState} {s : GossipState}
    (found : newest rank (first.filter (·.nodeID = node)) = some s) :
    ∃ s', newest rank ((first ++ rest).filter (·.nodeID = node)) = some s' ∧ s.rank ≤ s'.rank := by
  have member : s ∈ (first ++ rest).filter (·.nodeID = node) := by
    rw [filter_append]
    exact mem_append_left _ (mem_of_newest found)
  obtain ⟨s', found'⟩ := exists_newest rank member
  exact ⟨s', found', rank_le_newest found' member⟩

end Gossiper

open Gossiper Newest in
/-- Push messages and pull responses may come in any order and any number of times, and their states may be
handled in any order: the newest state of every other node is kept, and nodes that received the same states
agree. -/
theorem gossip_converges (own : GossipState) (messages : List GossipMessage)
    (merging : ∀ msg ∈ messages, msg.type = .push ∨ msg.type = .pullResp) (handled : List GossipState)
    (anyOrder : handled.Perm (messages.flatMap GossipMessage.brings)) :
    let stored (states : List GossipState) (node : String) := (updates.after (fresh own) states).states.lookup node
    -- one message after the other is one of the orders
    gossip.run (fresh own) messages = ((updates.run (fresh own) (messages.flatMap GossipMessage.brings)).1,
          (updates.run (fresh own) (messages.flatMap GossipMessage.brings)).2.map Effect.join) ∧
      (∀ node, node ≠ own.nodeID → (received node messages = [] ∧ stored handled node = none) ∨
          ∃ s ∈ received node messages, stored handled node = some s ∧ ∀ t ∈ received node messages, t.rank ≤ s.rank) ∧
      (∀ first rest, handled = first ++ rest → ∀ node s, stored first node = some s →
        ∃ s', stored handled node = some s' ∧ s.rank ≤ s'.rank) ∧
      (updates.after (fresh own) handled).myState = own ∧ stored handled own.nodeID = none ∧
      (∀ node, ((updates.run (fresh own) handled).2.map Join.nodeID).count node =
        if node ≠ own.nodeID ∧ received node messages ≠ [] then 1 else 0) ∧
      ∀ (own' : GossipState) (handled' : List GossipState), (∀ s, s ∈ handled ↔ s ∈ handled') →
        (∀ s ∈ handled, ∀ t ∈ handled, s.nodeID = t.nodeID → s.epoch = t.epoch → s.term = t.term → s = t) →
        ∀ node, node ≠ own.nodeID → node ≠ own'.nodeID →
          stored handled node = (updates.after (fresh own') handled').states.lookup node := by
  intro stored
  have newestOf (states : List GossipState) {node : String} (other : node ≠ own.nodeID) :
      stored states node = newest GossipState.rank (states.filter (·.nodeID = node)) :=
    updates_newest other rfl states
  have sameStates (node : String) : (handled.filter (·.nodeID = node)).Perm (received node messages) :=
    anyOrder.filter _
  obtain ⟨-, mine, none⟩ := updates_frame (g := fresh own) handled
  refine ⟨gossip_run messages merging, ?_, ?_, mine, none, ?_, ?_⟩
  · intro node other
    rw [newestOf handled other]
    cases found : newest GossipState.rank (handled.filter (·.nodeID = node)) with
    | none =>
      left
      refine ⟨eq_nil_iff_forall_not_mem.mpr fun s member => ?_, rfl⟩
      obtain ⟨kept, there⟩ := exists_newest GossipState.rank ((sameStates node).mem_iff.mpr member)
      rw [found] at there
      cases there
    | some s =>
      right
      refine ⟨s, (sameStates node).mem_iff.mp (mem_of_newest found), rfl, fun t member => ?_⟩
      exact rank_le_newest found ((sameStates node).mem_iff.mpr member)
  · rintro first rest rfl node s found
    by_cases self : node = own.nodeID
    · rw [self] at found
      have absent : stored first own.nodeID = Option.none := (updates_frame (g := fresh own) first).2.2
      rw [absent] at found
      cases found
    · rw [newestOf first self] at found
      rw [newestOf (first ++ rest) self]
      exact newest_mono found
  · intro node
    have some_iff : (∃ s ∈ handled, s.nodeID = node) ↔ received node messages ≠ [] := by
      constructor
      · rintro ⟨s, member, same⟩
        exact ne_nil_of_mem ((sameStates node).mem_iff.mp (mem_filter.mpr ⟨member, by simpa using same⟩))
      · intro some
        obtain ⟨s, member⟩ := exists_mem_of_ne_nil _ some
        obtain ⟨member, same⟩ := mem_filter.mp ((sameStates node).mem_iff.mpr member)
        exact ⟨s, member, by simpa using same⟩
    rw [updates_joins rfl]
    exact if_congr (by simp [some_iff, fresh]) rfl rfl
  · intro own' handled' same distinct node other other'
    rw [newestOf handled other, updates_newest other' rfl]
    apply newest_congr
    · intro s
      simp only [mem_filter, same]
    · simp only [mem_filter, decide_eq_true_eq]
      rintro s ⟨member, rfl⟩ t ⟨member', same⟩ ranks
      obtain ⟨epochs, terms⟩ := Prod.mk.injEq .. ▸ toLex.injective ranks
      exact distinct s member t member' same.symm (UInt64.toNat_inj.mp epochs) (UInt64.toNat_inj.mp terms)

open Gossiper in
/-- The states of a push and of a pull response, in one order at `a` and in the other at `c`. -/
theorem gossip_converges_two_states :
    let older : GossipState := ⟨"b", "b:9000", 1, 1⟩
    let newer : GossipState := ⟨"b", "b:9000", 2, 1⟩
    (updates.after (fresh ⟨"a", "a:9000", 1, 1⟩) [older, newer]).states.lookup "b" =
      (updates.after (fresh ⟨"c", "c:9000", 1, 1⟩) [newer, older, newer]).states.lookup "b" := by
  intro older newer
  have converges := gossip_converges ⟨"a", "a:9000", 1, 1⟩
    [⟨.push, "b", [older], ∅⟩, ⟨.pullResp, "c", [newer], ∅⟩] (by simp) [older, newer] (List.Perm.refl _)
  exact converges.2.2.2.2.2.2 ⟨"c", "c:9000", 1, 1⟩ [newer, older, newer]
    (fun s => by simp only [mem_cons, not_mem_nil, or_false]; tauto) (by decide) "b" (by decide) (by decide)

end FlowRulZ.Cluster
