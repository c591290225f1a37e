import FlowRulZ.Lib.Component
import FlowRulZ.Lib.Table
import FlowRulZ.Lib.Text
import Mathlib.Data.Finset.Card

/-! # Waiting for acks

`WaitForAcks` puts a counter into a map, under the rule and the version it waits for, and
`handleAck` counts every ack for them, from whatever node.  A wait that succeeds has counted
enough of the acks that were delivered since its call; they are from enough followers if no node
has sent two of these and the leader none.
-/

namespace FlowRulZ.Plandist

open List

structure AckMessage where
  nodeID : String
  ruleID : String
  version : UInt64
  status : String
  deriving Repr, DecidableEq

def ackKey (ruleID : String) (version : UInt64) : String := s!"{ruleID}:{version.toNat}"

inductive Outcome where
  | acked
  | failed (e : String)
  deriving Repr, DecidableEq

/-- A call of `WaitForAcks` and its `pendingAck`. -/
structure Waiter where
  ruleID : String
  version : UInt64
  requested : Int
  /-- `AliveCount`; none if there is no quorum provider. -/
  alive : Option Nat
  quorum : Int
  received : Int32 := 0
  done : Option Int := none
  outcome : Option Outcome := none
  /-- Which nodes the acks were from that are counted in `received`. -/
  counted : List String := []
  deriving Repr, DecidableEq

structure Acks where
  /-- Which call waits for a key. -/
  pendingAcks : AList (fun _ : String => Nat) := ∅
  waiters : List Waiter := []

/-- The quorum that a call waits for, or what it returns at once. -/
def resolveQuorum (ruleID : String) (version : UInt64) (quorum : Int) (alive : Option Nat) : Except Outcome Int :=
  if 0 < quorum then .ok quorum
  else match alive with
    | none => .error (.failed s!"plandist: QuorumProvider not configured, cannot determine quorum (rule={ruleID} v={version.toNat}); wire WithQuorumProvider in NodeBuilder or pass explicit quorum > 0")
    | some n =>
      if 1 < n then .ok (if quorum = 0 then ((n - 1) / 2 + 1 : Nat) else (n - 1 : Nat))
      else .error .acked

namespace Waiter

def key (w : Waiter) : String := ackKey w.ruleID w.version

/-- An ack is counted; a number is sent if the channel is empty. -/
def count (w : Waiter) (nodeID : String) : Waiter :=
  let n := w.received + 1
  { w with
    received := n
    done := if Int32.ofInt w.quorum ≤ n ∧ w.done = none then some n.toInt else w.done
    counted := w.counted ++ [nodeID] }

def wake (w : Waiter) (n : Int) : Waiter :=
  { w with
    done := none
    outcome := some (if w.quorum ≤ n then .acked
      else .failed s!"plandist: insufficient acks for {w.ruleID} v{w.version.toNat} ({n}/{w.quorum})") }

def expire (w : Waiter) : Waiter :=
  { w with
    outcome := some (.failed
      s!"plandist: ack timeout for {w.ruleID} v{w.version.toNat} (got {w.received.toInt}/{w.quorum})") }

end Waiter

namespace Acks

/-- `WaitForAcks` up to its select. -/
def waitForAcks (acks : Acks) (ruleID : String) (version : UInt64) (requested : Int) (alive : Option Nat) : Acks :=
  match resolveQuorum ruleID version requested alive with
  | .error outcome =>
    { acks with waiters := acks.waiters ++
        [{ ruleID, version, requested, alive, quorum := requested, outcome := some outcome }] }
  | .ok quorum =>
    { pendingAcks := acks.pendingAcks.insert (ackKey ruleID version) acks.waiters.length
      waiters := acks.waiters ++ [{ ruleID, version, requested, alive, quorum }] }

def handleAck (acks : Acks) (ack : AckMessage) : Acks :=
  match acks.pendingAcks.lookup (ackKey ack.ruleID ack.version) with
  | none => acks
  | some i => { acks with waiters := acks.waiters.modify i (·.count ack.nodeID) }

def finish (acks : Acks) (i : Nat) (w : Waiter) : Acks where
  pendingAcks := acks.pendingAcks.erase w.key
  waiters := acks.waiters.set i w

def wake (acks : Acks) (i : Nat) : Acks :=
  match acks.waiters[i]? with
  | none => acks
  | some w =>
    match w.outcome, w.done with
    | none, some n => acks.finish i (w.wake n)
    | _, _ => acks

def expire (acks : Acks) (i : Nat) : Acks :=
  match acks.waiters[i]? with
  | none => acks
  | some w => if w.outcome = none then acks.finish i w.expire else acks

inductive Event where
  | wait (ruleID : String) (version : UInt64) (requested : Int) (alive : Option Nat)
  | ack (ack : AckMessage)
  | wake (i : Nat)
  | expire (i : Nat)
  deriving Repr, DecidableEq

def step (acks : Acks) : Event → Acks
  | .wait ruleID version requested alive => acks.waitForAcks ruleID version requested alive
  | .ack ack => acks.handleAck ack
  | .wake i => acks.wake i
  | .expire i => acks.expire i

/-- Any number of calls, with acks in between. Loading a counter and adding to it are one step. -/
def component : Component Acks Event Unit where
  handle acks event := (acks.step event, [])

end Acks

theorem ackKey_toList (ruleID : String) (version : UInt64) :
    (ackKey ruleID version).toList = ruleID.toList ++ ':' :: Nat.toDigits 10 version.toNat := by
  simp [ackKey, toString, Nat.repr_eq_ofList_toDigits]

theorem ackKey_inj {ruleID ruleID' : String} {version version' : UInt64}
    (same : ackKey ruleID version = ackKey ruleID' version') : ruleID = ruleID' ∧ version = version' := by
  have chars := congrArg String.toList same
  rw [ackKey_toList, ackKey_toList] at chars
  obtain ⟨rules, versions⟩ := Text.append_number_inj (by decide) chars
  exact ⟨String.toList_inj.mp rules, UInt64.toNat_inj.mp versions⟩

section

variable {ruleID : String} {version : UInt64} {requested quorum : Int} {alive : Option Nat}

theorem resolveQuorum_acked (resolved : resolveQuorum ruleID version requested alive = .error .acked) :
    requested ≤ 0 ∧ ∃ n ≤ 1, alive = some n := by
  unfold resolveQuorum at resolved
  cases alive <;> grind

theorem resolveQuorum_pos (resolved : resolveQuorum ruleID version requested alive = .ok quorum) : 0 < quorum := by
  unfold resolveQuorum at resolved
  cases alive <;> grind

end

def Acked (events : List Acks.Event) (ruleID : String) (version : UInt64) (node : String) : Prop :=
  ∃ status, Acks.Event.ack ⟨node, ruleID, version, status⟩ ∈ events

/-- No quorum was asked for, and at most one node is alive. -/
def NothingToWaitFor (w : Waiter) : Prop := w.requested ≤ 0 ∧ ∃ n ≤ 1, w.alive = some n

/-- What holds of a call, given the acks that have arrived. -/
structure Tallied (acked : String → UInt64 → String → Prop) (w : Waiter) : Prop where
  received : w.received = Int32.ofNat w.counted.length
  sent : ∀ n, w.done = some n → n ≤ w.counted.length
  /-- A call that has returned nil had nothing to wait for, or has counted enough. -/
  enough : w.outcome = some .acked →
    NothingToWaitFor w ∨
      resolveQuorum w.ruleID w.version w.requested w.alive = .ok w.quorum ∧ w.quorum ≤ w.counted.length
  resolved : w.outcome = none → resolveQuorum w.ruleID w.version w.requested w.alive = .ok w.quorum
  genuine : ∀ node ∈ w.counted, acked w.ruleID w.version node

section

variable {acked acked' : String → UInt64 → String → Prop} {w : Waiter}

theorem Tallied.mono (tallied : Tallied acked w) (more : ∀ r v node, acked r v node → acked' r v node) :
    Tallied acked' w :=
  { tallied with genuine := fun node there => more _ _ _ (tallied.genuine node there) }

theorem toInt_ofNat_le (n : Nat) : (Int32.ofNat n).toInt ≤ n := by
  have size : Int32.size = 4294967296 := rfl
  rw [Int32.toInt_ofNat', size, Int.bmod_def]
  split <;> omega

theorem Tallied.count (tallied : Tallied acked w) {node : String} (own : acked w.ruleID w.version node) :
    Tallied acked (w.count node) := by
  have received : w.received + 1 = Int32.ofNat (w.counted ++ [node]).length := by
    rw [tallied.received, length_append, Int32.ofNat_add]
    rfl
  refine ⟨received, ?_, ?_, tallied.resolved, ?_⟩
  · intro n sent
    simp only [Waiter.count, length_append] at sent ⊢
    split_ifs at sent with first
    · cases sent
      rw [received, length_append]
      exact toInt_ofNat_le _
    · have before := tallied.sent n sent
      omega
  · intro done
    rcases tallied.enough done with nothing | ⟨resolved, enough⟩
    · exact .inl nothing
    · refine .inr ⟨resolved, ?_⟩
      simp only [Waiter.count, length_append]
      omega
  · intro other there
    rcases mem_append.mp there with old | new
    · exact tallied.genuine other old
    · cases mem_singleton.mp new
      exact own

theorem Tallied.wake (tallied : Tallied acked w) {n : Int} (waiting : w.outcome = none) (sent : w.done = some n) :
    Tallied acked (w.wake n) where
  received := tallied.received
  sent := nofun
  enough := by
    intro done
    have full : w.quorum ≤ n := by
      by_contra short
      simp [Waiter.wake, short] at done
    exact .inr ⟨tallied.resolved waiting, full.trans (tallied.sent n sent)⟩
  resolved := nofun
  genuine := tallied.genuine

theorem Tallied.expire (tallied : Tallied acked w) : Tallied acked w.expire where
  received := tallied.received
  sent := tallied.sent
  enough := nofun
  resolved := nofun
  genuine := tallied.genuine

/-- Every call is accounted for, and the map leads to calls for its keys. -/
structure Consistent (acked : String → UInt64 → String → Prop) (acks : Acks) : Prop where
  tallied : ∀ w ∈ acks.waiters, Tallied acked w
  pending : ∀ key i, acks.pendingAcks.lookup key = some i → ∃ w, acks.waiters[i]? = some w ∧ w.key = key

variable {acks : Acks}

section

variable (consistent : Consistent acked acks)
include consistent

theorem Consistent.mono (more : ∀ r v node, acked r v node → acked' r v node) : Consistent acked' acks :=
  ⟨fun w there => (consistent.tallied w there).mono more, consistent.pending⟩

theorem consistent_wait (ruleID : String) (version : UInt64) (requested : Int) (alive : Option Nat) :
    Consistent acked (acks.waitForAcks ruleID version requested alive) := by
  unfold Acks.waitForAcks
  cases resolved : resolveQuorum ruleID version requested alive with
  | error outcome =>
    constructor
    · intro w there
      rcases mem_append.mp there with before | new
      · exact consistent.tallied w before
      · cases mem_singleton.mp new
        refine ⟨rfl, nofun, ?_, nofun, nofun⟩
        rintro ⟨⟩
        exact .inl (resolveQuorum_acked resolved)
    · intro key i known
      obtain ⟨w, there, own⟩ := consistent.pending key i known
      exact ⟨w, Table.append_left there, own⟩
  | ok quorum =>
    constructor
    · intro w there
      rcases mem_append.mp there with before | new
      · exact consistent.tallied w before
      · cases mem_singleton.mp new
        exact ⟨rfl, nofun, nofun, fun _ => resolved, nofun⟩
    · intro key i known
      rcases Table.of_insert known with ⟨rfl, rfl⟩ | ⟨-, before⟩
      · exact ⟨_, getElem?_concat_length, rfl⟩
      · obtain ⟨w, there, own⟩ := consistent.pending key i before
        exact ⟨w, Table.append_left there, own⟩

theorem consistent_ack {ack : AckMessage}
    (arrived : acked ack.ruleID ack.version ack.nodeID) : Consistent acked (acks.handleAck ack) := by
  unfold Acks.handleAck
  split
  · exact consistent
  · rename_i i known
    obtain ⟨w, here, own⟩ := consistent.pending _ i known
    obtain ⟨rules, versions⟩ := ackKey_inj own
    constructor
    · intro w' there
      obtain ⟨j, found⟩ := mem_iff_getElem?.mp there
      rw [getElem?_modify] at found
      obtain ⟨old, before, rfl⟩ := Option.map_eq_some_iff.mp found
      have tallied := consistent.tallied old (mem_of_getElem? before)
      split_ifs with same
      · subst same
        rw [here] at before
        cases before
        exact tallied.count (rules ▸ versions ▸ arrived)
      · exact tallied
    · intro key j found
      obtain ⟨w', there, own'⟩ := consistent.pending key j found
      refine ⟨if i = j then w'.count ack.nodeID else w', ?_, ?_⟩
      · rw [getElem?_modify, there]
        rfl
      · split_ifs <;> exact own'

theorem consistent_finish {i : Nat} {old w : Waiter}
    (here : acks.waiters[i]? = some old) (own : old.key = w.key) (tallied : Tallied acked w) :
    Consistent acked (acks.finish i w) := by
  constructor
  · intro w' there
    rcases mem_or_eq_of_mem_set there with before | rfl
    · exact consistent.tallied w' before
    · exact tallied
  · intro key j known
    simp only [Acks.finish] at known ⊢
    obtain ⟨apart, before⟩ := Table.of_erase known
    obtain ⟨w', there, own'⟩ := consistent.pending key j before
    have other : i ≠ j := by
      rintro rfl
      rw [here] at there
      cases there
      exact apart (own'.symm.trans own)
    exact ⟨w', by rwa [getElem?_set_ne other], own'⟩

theorem consistent_step {event : Acks.Event}
    (arrived : ∀ ack, event = .ack ack → acked ack.ruleID ack.version ack.nodeID) :
    Consistent acked (acks.step event) := by
  cases event with
  | wait ruleID version requested alive => exact consistent_wait consistent ruleID version requested alive
  | ack ack => exact consistent_ack consistent (arrived ack rfl)
  | wake i =>
    simp only [Acks.step, Acks.wake]
    split
    · exact consistent
    · rename_i w here
      split
      · rename_i n waiting sent
        have tallied := consistent.tallied w (mem_of_getElem? here)
        exact consistent_finish consistent here rfl (tallied.wake waiting sent)
      · exact consistent
  | expire i =>
    simp only [Acks.step, Acks.expire]
    split
    · exact consistent
    · rename_i w here
      split_ifs
      · have tallied := consistent.tallied w (mem_of_getElem? here)
        exact consistent_finish consistent here rfl tallied.expire
      · exact consistent

end

end

/-- Who sent the acks for a rule and a version, as they were delivered. -/
def senders (ruleID : String) (version : UInt64) (events : List Acks.Event) : List String :=
  events.filterMap fun event => match event with
    | .ack ack => if ack.ruleID = ruleID ∧ ack.version = version then some ack.nodeID else none
    | _ => none

def Waiter.call (w : Waiter) : Acks.Event := .wait w.ruleID w.version w.requested w.alive

/-- The same call later on; the acks of the event may be counted. -/
def Waiter.Becomes (w : Waiter) (event : Acks.Event) (w' : Waiter) : Prop :=
  w'.call = w.call ∧ ∃ more, w'.counted = w.counted ++ more ∧ more <+ senders w.ruleID w.version [event]

section

variable {acked : String → UInt64 → String → Prop} {acks : Acks} {i : Nat} {w : Waiter}

theorem Waiter.Becomes.of_same (event : Acks.Event) {w' : Waiter} (call : w'.call = w.call) (same : w'.counted = w.counted) :
    w.Becomes event w' :=
  ⟨call, [], by simpa using same, nil_sublist _⟩

theorem finish_waiter {event : Acks.Event} {j : Nat} {old new : Waiter} (there : acks.waiters[j]? = some old)
    (becomes : old.Becomes event new) (here : acks.waiters[i]? = some w) :
    ∃ w', (acks.finish j new).waiters[i]? = some w' ∧ w.Becomes event w' := by
  obtain ⟨rfl, rfl, set⟩ | ⟨-, set⟩ := Table.after_set there here
  · exact ⟨new, set new, becomes⟩
  · exact ⟨w, set new, .of_same event rfl rfl⟩

/-- A call counts nothing but acks for its own rule and version. -/
theorem step_waiter (consistent : Consistent acked acks) (event : Acks.Event) (here : acks.waiters[i]? = some w) :
    ∃ w', (acks.step event).waiters[i]? = some w' ∧ w.Becomes event w' := by
  have same : w.Becomes event w := .of_same event rfl rfl
  cases event with
  | wait ruleID version requested alive =>
    refine ⟨w, ?_, same⟩
    simp only [Acks.step, Acks.waitForAcks]
    split <;> exact Table.append_left here
  | ack ack =>
    simp only [Acks.step, Acks.handleAck]
    split
    · exact ⟨w, here, same⟩
    · rename_i j known
      by_cases own : j = i
      · -- the map leads to the call, so that the ack is for its key
        obtain ⟨w', there, key⟩ := consistent.pending _ j known
        cases own
        cases here.symm.trans there
        obtain ⟨rules, versions⟩ := ackKey_inj key
        exact ⟨w.count ack.nodeID, by simp [here], rfl, [ack.nodeID], rfl, by simp [senders, rules, versions]⟩
      · exact ⟨w, by simpa [getElem?_modify, own] using here, same⟩
  | wake j | expire j =>
    simp only [Acks.step, Acks.wake, Acks.expire]
    split
    · exact ⟨w, here, same⟩
    · rename_i old there
      split
      · exact finish_waiter there (.of_same _ rfl rfl) here
      · exact ⟨w, here, same⟩

theorem after_waiter (consistent : Consistent (fun _ _ _ => True) acks) (here : acks.waiters[i]? = some w)
    (events : List Acks.Event) :
    ∃ w', (Acks.component.after acks events).waiters[i]? = some w' ∧ w'.call = w.call ∧
      ∃ more, w'.counted = w.counted ++ more ∧ more <+ senders w.ruleID w.version events := by
  induction events generalizing acks w with
  | nil => exact ⟨w, here, rfl, [], by simp, nil_sublist _⟩
  | cons event events ih =>
    obtain ⟨w', there, call, more, counted, sent⟩ := step_waiter consistent event here
    obtain ⟨w'', later, call', more', counted', sent'⟩ :=
      ih (consistent_step consistent fun _ _ => trivial) there
    obtain ⟨rules, versions, -⟩ := Acks.Event.wait.inj call
    rw [rules, versions] at sent'
    have split : senders w.ruleID w.version (event :: events) =
        senders w.ruleID w.version [event] ++ senders w.ruleID w.version events := filterMap_append (l := [event])
    exact ⟨w'', later, call'.trans call, more ++ more', by rw [counted', counted, append_assoc],
      split ▸ sent.append sent'⟩

end

def Apart (leader : String) (nodes : List String) : Prop := nodes.Nodup ∧ leader ∉ nodes

theorem consistent_empty (acked : String → UInt64 → String → Prop) : Consistent acked {} :=
  ⟨nofun, fun key i known => by simp at known⟩

/-- A call that returns nil had nothing to wait for or has counted a quorum of acks for its rule and version. If those
that were delivered after it are from nodes apart, they are from as many followers. -/
theorem acked_by_followers (leader : String) (before after : List Acks.Event) (ruleID : String) (version : UInt64)
    (requested : Int) (alive : Option Nat) {w : Waiter}
    (there : (Acks.component.after {} (before ++ .wait ruleID version requested alive :: after)).waiters[
      (Acks.component.after {} before).waiters.length]? = some w) (acked : w.outcome = some .acked) :
    (requested ≤ 0 ∧ ∃ n ≤ 1, alive = some n) ∨
      resolveQuorum ruleID version requested alive = .ok w.quorum ∧ 0 < w.quorum ∧
        (Apart leader (senders ruleID version after) → ∃ nodes : Finset String, w.quorum ≤ nodes.card ∧
            ∀ node ∈ nodes, node ≠ leader ∧ Acked after ruleID version node) := by
  have consistent (events : List Acks.Event) : Consistent (fun _ _ _ => True) (Acks.component.after {} events) :=
    Component.after_of_invariant (P := Consistent fun _ _ _ => True) (consistent_empty _) fun _ consistent =>
      consistent_step consistent fun _ _ => trivial
  have tallied := (consistent _).tallied w (mem_of_getElem? there)
  obtain ⟨called, counted⟩ : w.call = .wait ruleID version requested alive ∧
      w.counted <+ senders ruleID version after := by
    obtain ⟨w₀, first, call, none⟩ : ∃ w₀ : Waiter, ((Acks.component.after {} before).waitForAcks ruleID version
        requested alive).waiters[(Acks.component.after {} before).waiters.length]? = some w₀ ∧
          w₀.call = .wait ruleID version requested alive ∧ w₀.counted = [] := by
      unfold Acks.waitForAcks
      split <;> exact ⟨_, getElem?_concat_length, rfl, rfl⟩
    obtain ⟨w', later, call', more, counted, sent⟩ :=
      after_waiter (consistent_wait (consistent before) ..) first after
    rw [Component.after_append] at there
    cases there.symm.trans later
    obtain ⟨rfl, rfl, -⟩ := Acks.Event.wait.inj call
    exact ⟨call'.trans call, by rwa [counted, none]⟩
  obtain ⟨rfl, rfl, rfl, rfl⟩ := Acks.Event.wait.inj called
  rcases tallied.enough acked with nothing | ⟨resolved, enough⟩
  · exact .inl nothing
  · refine .inr ⟨resolved, resolveQuorum_pos resolved, ?_⟩
    rintro ⟨distinct, other⟩
    refine ⟨w.counted.toFinset, ?_, ?_⟩
    · rwa [toFinset_card_of_nodup (distinct.sublist counted)]
    · intro node listed
      have sent := counted.subset (mem_toFinset.mp listed)
      refine ⟨fun same => other (same ▸ sent), ?_⟩
      obtain ⟨event, delivered, found⟩ := mem_filterMap.mp sent
      cases event with
      | ack ack =>
        obtain ⟨⟨rules, versions⟩, ids⟩ := Option.ite_none_right_eq_some.mp found
        exact ⟨ack.status, by rwa [← Option.some.inj ids, ← rules, ← versions]⟩
      | _ => cases found

/-- Two followers have sent an ack, after another one that came too early. -/
theorem acked_by_two : ∃ nodes : Finset String, (2 : Int) ≤ nodes.card ∧ ∀ node ∈ nodes, node ≠ "leader" ∧
      Acked [.ack ⟨"b", "r", 1, "ok"⟩, .ack ⟨"c", "r", 1, "ok"⟩, .wake 0] "r" 1 node := by
  rcases acked_by_followers "leader" [.ack ⟨"b", "r", 1, "ok"⟩]
      [.ack ⟨"b", "r", 1, "ok"⟩, .ack ⟨"c", "r", 1, "ok"⟩, .wake 0] "r" 1 2 none rfl rfl with nothing | ⟨-, -, followers⟩
  · exact absurd nothing.1 (by decide)
  · exact followers ⟨by decide, by decide⟩

def twoAcks (second : String) : List Acks.Event :=
  [.wait "r" 1 2 none, .ack ⟨"b", "r", 1, "ok"⟩, .ack ⟨second, "r", 1, "ok"⟩, .wake 0]

def OneFollower (events : List Acks.Event) : Prop :=
  (∃ w ∈ (Acks.component.after {} events).waiters, w.outcome = some .acked ∧ w.quorum = 2) ∧
    ∀ node, Acked events "r" 1 node → node ≠ "leader" → node = "b"

/-- One follower that is counted twice is enough for a quorum of two, and so is one follower with the
leader itself. -/
theorem one_follower_is_enough : OneFollower (twoAcks "b") ∧ OneFollower (twoAcks "leader") := by
  refine ⟨⟨by decide, ?_⟩, ⟨by decide, ?_⟩⟩
  · rintro node ⟨status, there⟩ follower
    simp only [twoAcks] at there
    grind
  · rintro node ⟨status, there⟩ follower
    simp only [twoAcks] at there
    grind

end FlowRulZ.Plandist
