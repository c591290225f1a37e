import FlowRulZ.Plandist.Acks
import Mathlib.Order.Interval.Finset.Nat

/-! # Acks that are delivered while a plan is distributed

`distributePlan` publishes a plan and then calls `WaitForAcks`, while acks are delivered and
others wait for the same rule and version.  `handleAck` looks the key up, adds to the counter
that it finds and may then fill the channel; `WaitForAcks` goes on after its select and then
deletes its key.  Anything can happen in between.
-/

namespace FlowRulZ.Plandist

open List

inductive Stage where
  | loaded
  | added (n : Int32)
  | returned
  deriving Repr, DecidableEq

structure Delivery where
  ack : AckMessage
  waiter : Option Nat
  stage : Stage
  /-- How many acks that wait had counted with this one. -/
  place : Nat := 0
  deriving Repr, DecidableEq

namespace Waiter

def add (w : Waiter) (nodeID : String) : Waiter :=
  { w with received := w.received + 1, counted := w.counted ++ [nodeID] }

/-- A number is sent if it is large enough and the channel is empty. -/
def offer (w : Waiter) (n : Int32) : Waiter :=
  { w with done := if Int32.ofInt w.quorum ≤ n ∧ w.done = none then some n.toInt else w.done }

end Waiter

structure Board where
  acks : Acks := {}
  deliveries : List Delivery := []
  /-- The waits that are over and have not deleted their keys. -/
  returning : List Nat := []

namespace Board

variable (b : Board)

def pending (key : String) : Option Nat := b.acks.pendingAcks.lookup key

/-- `handleAck` up to its `Load`; it returns if nothing is found. -/
def load (ack : AckMessage) : Board :=
  let found := b.pending (ackKey ack.ruleID ack.version)
  { b with deliveries := b.deliveries ++ [⟨ack, found, if found = none then .returned else .loaded, 0⟩] }

def setWaiter (i : Nat) (w : Waiter) (j : Nat) (d : Delivery) : Board :=
  { b with
    acks := { b.acks with waiters := b.acks.waiters.set i w }
    deliveries := b.deliveries.set j d }

def add (j : Nat) : Board :=
  match b.deliveries[j]? with
  | some ⟨ack, some i, .loaded, _⟩ =>
    match b.acks.waiters[i]? with
    | some w =>
      b.setWaiter i (w.add ack.nodeID) j ⟨ack, some i, .added (w.received + 1), w.counted.length + 1⟩
    | none => b
  | _ => b

def offer (j : Nat) : Board :=
  match b.deliveries[j]? with
  | some ⟨ack, some i, .added n, place⟩ =>
    match b.acks.waiters[i]? with
    | some w => b.setWaiter i (w.offer n) j ⟨ack, some i, .returned, place⟩
    | none => b
  | _ => b

def finish (i : Nat) (w : Waiter) : Board :=
  { b with acks := { b.acks with waiters := b.acks.waiters.set i w }, returning := i :: b.returning }

def wake (i : Nat) : Board :=
  match b.acks.waiters[i]? with
  | none => b
  | some w =>
    match w.outcome, w.done with
    | none, some n => b.finish i (w.wake n)
    | _, _ => b

def expire (i : Nat) : Board :=
  match b.acks.waiters[i]? with
  | none => b
  | some w => if w.outcome = none then b.finish i w.expire else b

def delete (i : Nat) : Board :=
  match b.acks.waiters[i]? with
  | none => b
  | some w =>
    if i ∈ b.returning then
      { b with
        acks := { b.acks with pendingAcks := b.acks.pendingAcks.erase w.key }
        returning := b.returning.erase i }
    else b

inductive Event where
  | wait (ruleID : String) (version : UInt64) (requested : Int) (alive : Option Nat)
  | load (ack : AckMessage)
  | add (j : Nat)
  | offer (j : Nat)
  | wake (i : Nat)
  | expire (i : Nat)
  | delete (i : Nat)
  deriving Repr, DecidableEq

def step : Event → Board
  | .wait ruleID version requested alive =>
    { b with acks := b.acks.waitForAcks ruleID version requested alive }
  | .load ack => b.load ack
  | .add j => b.add j
  | .offer j => b.offer j
  | .wake i => b.wake i
  | .expire i => b.expire i
  | .delete i => b.delete i

/-- Any number of waits and of calls of `handleAck`, interleaved. -/
def component : Component Board Event Unit where
  handle b event := (b.step event, [])

/-! ## The acks of a period -/

/-- A wait for a key is registered, or one deletes it. -/
def Touches (key : String) : Event → Prop
  | .wait ruleID version requested alive =>
    ackKey ruleID version = key ∧ ∃ quorum, resolveQuorum ruleID version requested alive = .ok quorum
  | .delete i => i ∈ b.returning ∧ ∃ w, b.acks.waiters[i]? = some w ∧ w.key = key
  | _ => False

def arrival : Event → List (AckMessage × Option Nat)
  | .load ack => [(ack, b.pending (ackKey ack.ruleID ack.version))]
  | _ => []

def arrivals : Board → List Event → List (AckMessage × Option Nat)
  | _, [] => []
  | b, event :: events => b.arrival event ++ arrivals (b.step event) events

def arrived : List (AckMessage × Option Nat) := b.deliveries.map fun d => (d.ack, d.waiter)

section

variable {b : Board} {key : String} {event : Event}

theorem delete_cases (b : Board) (i : Nat) : (∃ w, i ∈ b.returning ∧ b.acks.waiters[i]? = some w ∧
      b.delete i = { b with
        acks := { b.acks with pendingAcks := b.acks.pendingAcks.erase w.key }
        returning := b.returning.erase i }) ∨
      (b.delete i = b ∧ ¬ (i ∈ b.returning ∧ ∃ w, b.acks.waiters[i]? = some w)) := by
  unfold delete
  cases there : b.acks.waiters[i]? with
  | none => simp
  | some w => by_cases returning : i ∈ b.returning <;> simp [returning]

theorem map_set_same {α β : Type} {l : List α} {i : Nat} {x y : α} (f : α → β) (there : l[i]? = some x)
    (same : f y = f x) : (l.set i y).map f = l.map f := by
  obtain ⟨inside, rfl⟩ := List.getElem?_eq_some_iff.mp there
  rw [map_set, same, ← getElem_map f (h := by simpa), set_getElem_self]

/-- Events that go on with a wait or a call of `handleAck`. -/
def Event.goesOn : Event → Bool
  | .add _ | .offer _ | .wake _ | .expire _ => true
  | _ => false

/-- They leave the map alone, the acks that have arrived and what the waits wait for. -/
theorem step_goesOn (b : Board) (goesOn : event.goesOn = true) :
    (b.step event).acks.pendingAcks = b.acks.pendingAcks ∧ (b.step event).arrived = b.arrived ∧
      (b.step event).acks.waiters.map (·.quorum) = b.acks.waiters.map (·.quorum) := by
  cases event with
  | add j | offer j =>
    simp only [step, add, offer]
    split
    next there =>
      split
      next here => exact ⟨rfl, map_set_same _ there rfl, map_set_same _ here rfl⟩
      next => exact ⟨rfl, rfl, rfl⟩
    next => exact ⟨rfl, rfl, rfl⟩
  | wake i | expire i =>
    simp only [step, wake, expire]
    split
    next => exact ⟨rfl, rfl, rfl⟩
    next here => split <;> exact ⟨rfl, rfl, by first | exact map_set_same _ here rfl | rfl⟩
  | wait | load | delete => cases goesOn

theorem quorum_step (b : Board) (event : Event) :
    b.acks.waiters.map (·.quorum) <+: (b.step event).acks.waiters.map (·.quorum) := by
  cases event with
  | wait ruleID version requested alive =>
    simp only [step, Acks.waitForAcks]
    split <;> simp
  | load ack => exact prefix_rfl
  | delete i =>
    obtain ⟨w, -, -, deleted⟩ | ⟨same, -⟩ := delete_cases b i
    · rw [step, deleted]
    · rw [step, same]
  | add j | offer j | wake j | expire j => rw [(step_goesOn b rfl).2.2]

theorem length_step (b : Board) (event : Event) : b.acks.waiters.length ≤ (b.step event).acks.waiters.length := by
  simpa using (quorum_step b event).length_le

theorem pending_step (b : Board) (key : String) (event : Event) :
    (¬ b.Touches key event → (b.step event).pending key = b.pending key) ∧
      (b.Touches key event → ∀ i < b.acks.waiters.length, (b.step event).pending key ≠ some i) := by
  cases event with
  | wait ruleID version requested alive =>
    simp only [step, pending, Touches, Acks.waitForAcks]
    cases resolved : resolveQuorum ruleID version requested alive with
    | error outcome => simp
    | ok quorum => grind
  | load ack => simp [step, load, pending, Touches]
  | delete i =>
    obtain ⟨w, returning, there, deleted⟩ | ⟨same, returned⟩ := delete_cases b i
    · simp only [step, pending, Touches]
      grind
    · simp only [step, Touches]
      grind
  | add j | offer j | wake j | expire j =>
    refine ⟨fun _ => ?_, False.elim⟩
    rw [pending, (step_goesOn b rfl).1]
    rfl

variable {i : Nat}

theorem pending_ne_after (events : List Event) (known : i < b.acks.waiters.length)
    (lost : b.pending key ≠ some i) : (component.after b events).pending key ≠ some i := by
  induction events generalizing b with
  | nil => exact lost
  | cons event events ih =>
    obtain ⟨untouched, touched⟩ := pending_step b key event
    apply ih (Nat.lt_of_lt_of_le known (length_step b event))
    by_cases touches : b.Touches key event
    · exact touched touches i known
    · rw [untouched touches]
      exact lost

/-- The map leads to a wait as long as no other is registered for the key and none returns. -/
theorem pending_after (events : List Event) (known : i < b.acks.waiters.length) (registered : b.pending key = some i) :
    (component.after b events).pending key = some i ↔
      component.Throughout (fun b event => ¬ b.Touches key event) b events := by
  induction events generalizing b with
  | nil => exact ⟨fun _ => trivial, fun _ => registered⟩
  | cons event events ih =>
    obtain ⟨untouched, touched⟩ := pending_step b key event
    have known' := Nat.lt_of_lt_of_le known (length_step b event)
    by_cases touches : b.Touches key event
    · constructor
      · exact fun found => absurd found (pending_ne_after events known' (touched touches i known))
      · exact fun throughout => absurd touches throughout.1
    · have still := ih known' ((untouched touches).trans registered)
      exact ⟨fun found => ⟨touches, still.mp found⟩, fun throughout => still.mpr throughout.2⟩

/-- Which wait counts an ack is settled when it arrives. -/
theorem arrived_step (b : Board) (event : Event) : (b.step event).arrived = b.arrived ++ b.arrival event := by
  cases event with
  | load ack => simp [step, load, arrived, arrival]
  | wait => simp [step, arrived, arrival]
  | delete i =>
    obtain ⟨w, -, -, deleted⟩ | ⟨same, -⟩ := delete_cases b i
    · simp [step, deleted, arrived, arrival]
    · simp [step, same, arrival]
  | add j | offer j | wake j | expire j =>
    rw [(step_goesOn b rfl).2.1]
    exact (append_nil _).symm

theorem arrivals_append (b : Board) (events more : List Event) :
    arrivals b (events ++ more) = arrivals b events ++ arrivals (component.after b events) more := by
  induction events generalizing b with
  | nil => rfl
  | cons event events ih =>
    simp only [cons_append, arrivals, ih, append_assoc]
    rfl

theorem arrived_after (b : Board) (events : List Event) :
    (component.after b events).arrived = b.arrived ++ arrivals b events := by
  induction events generalizing b with
  | nil => exact (append_nil _).symm
  | cons event events ih =>
    refine (ih (b.step event)).trans ?_
    rw [arrived_step, append_assoc]
    rfl

theorem mem_arrivals {ack : AckMessage} {found : Option Nat} {events : List Event} :
    (ack, found) ∈ arrivals b events ↔ ∃ before later, events = before ++ .load ack :: later ∧
        found = (component.after b before).pending (ackKey ack.ruleID ack.version) := by
  induction events generalizing b with
  | nil => simp [arrivals]
  | cons event events ih =>
    rw [arrivals, mem_append, ih, Splits.at_cons]
    refine or_congr_left ?_
    cases event with
    | load ack' =>
      simp only [arrival, mem_singleton, Prod.mk.injEq, Event.load.injEq, eq_comm]
      exact and_congr_right fun same => same ▸ Iff.rfl
    | wait | add | offer | wake | expire | delete => simp [arrival]

structure Counter (w : Waiter) : Prop where
  received : w.received = Int32.ofNat w.counted.length
  sent : ∀ n, w.done = some n → ∃ m : Int32, n = m.toInt ∧ Int32.ofInt w.quorum ≤ m

/-- What holds of a call of `handleAck` and the wait whose counter it has found. -/
structure Placed (d : Delivery) (w : Waiter) : Prop where
  own : d.stage ≠ .loaded → ∃ k, d.place = k + 1 ∧ w.counted[k]? = some d.ack.nodeID
  number : ∀ n, d.stage = .added n → n = Int32.ofNat d.place
  /-- A number that is large enough has filled the channel. -/
  filled : d.stage = .returned → Int32.ofInt w.quorum ≤ Int32.ofNat d.place → w.done ≠ none ∨ w.outcome ≠ none

structure Sound (b : Board) : Prop where
  counter : ∀ (i : Nat) w, b.acks.waiters[i]? = some w → Counter w
  pending : ∀ key i, b.pending key = some i → i < b.acks.waiters.length
  waiter : ∀ (j : Nat) d i, b.deliveries[j]? = some d → d.waiter = some i → i < b.acks.waiters.length
  placed : ∀ (j : Nat) d i w, b.deliveries[j]? = some d → d.waiter = some i → b.acks.waiters[i]? = some w →
    Placed d w
  distinct : ∀ (j j' : Nat) d d' i, b.deliveries[j]? = some d → b.deliveries[j']? = some d' →
    d.waiter = some i → d'.waiter = some i → d.stage ≠ .loaded → d'.stage ≠ .loaded → d.place = d'.place → j = j'

theorem Sound.waiters {acks : Acks} {returning : List Nat} (sound : b.Sound)
    (length : acks.waiters.length = b.acks.waiters.length)
    (pending : ∀ key i, acks.pendingAcks.lookup key = some i → i < b.acks.waiters.length)
    (kept : ∀ (i : Nat) w', acks.waiters[i]? = some w' → ∃ w, b.acks.waiters[i]? = some w ∧ w'.received = w.received ∧
      w'.counted = w.counted ∧ w'.quorum = w.quorum ∧ (w'.done = w.done ∨ w'.done = none ∧ w'.outcome ≠ none) ∧
      (w.outcome ≠ none → w'.outcome ≠ none)) :
    Sound { b with acks, returning } := by
  constructor
  · intro i w' there
    obtain ⟨w, here, received, counted, quorum, done, -⟩ := kept i w' there
    have counter := sound.counter i w here
    refine ⟨by rw [received, counted, counter.received], ?_⟩
    intro n sent
    rw [quorum]
    rcases done with same | ⟨empty, -⟩
    · exact counter.sent n (same ▸ sent)
    · rw [empty] at sent
      cases sent
  · intro key i found
    exact length ▸ pending key i found
  · intro j d i there found
    exact length ▸ sound.waiter j d i there found
  · intro j d i w' there found here'
    obtain ⟨w, here, received, counted, quorum, done, returned⟩ := kept i w' here'
    have placed := sound.placed j d i w there found here
    refine ⟨counted ▸ placed.own, placed.number, ?_⟩
    intro finished large
    rw [quorum] at large
    rcases placed.filled finished large with full | ended
    · rcases done with same | ⟨-, ended⟩
      · exact .inl (same ▸ full)
      · exact .inr ended
    · exact .inr (returned ended)
  · exact sound.distinct

variable {w w' : Waiter}

section

variable (sound : b.Sound)
include sound

theorem sound_finish (here : b.acks.waiters[i]? = some w)
    (same : w'.received = w.received ∧ w'.counted = w.counted ∧ w'.quorum = w.quorum)
    (done : w'.done = w.done ∨ w'.done = none) (ended : w'.outcome ≠ none) :
    Sound (b.finish i w') := by
  refine sound.waiters (length_set ..) sound.pending ?_
  intro k u there
  rcases Table.of_set there with ⟨rfl, rfl⟩ | ⟨-, old⟩
  · refine ⟨w, here, same.1, same.2.1, same.2.2, ?_, fun _ => ended⟩
    exact done.imp id fun empty => ⟨empty, ended⟩
  · exact ⟨u, old, rfl, rfl, rfl, .inl rfl, id⟩

theorem sound_delete (i : Nat) : Sound (b.delete i) := by
  obtain ⟨w, -, -, deleted⟩ | ⟨same, -⟩ := delete_cases b i
  · rw [deleted]
    refine sound.waiters rfl ?_ fun k u there => ⟨u, there, rfl, rfl, rfl, .inl rfl, id⟩
    intro key k found
    by_cases own : key = w.key
    · subst own
      rw [AList.lookup_erase] at found
      cases found
    · rw [AList.lookup_erase_ne own] at found
      exact sound.pending key k found
  · rw [same]
    exact sound

theorem sound_wait (ruleID : String) (version : UInt64) (requested : Int) (alive : Option Nat) :
    Sound { b with acks := b.acks.waitForAcks ruleID version requested alive } := by
  have new (w : Waiter) (fresh : w.received = 0 ∧ w.counted = [] ∧ w.done = none) (pendingAcks : _)
      (known : ∀ key i, AList.lookup key pendingAcks = some i → i ≤ b.acks.waiters.length) :
      Sound { b with acks := { pendingAcks, waiters := b.acks.waiters ++ [w] } } := by
    have longer : (b.acks.waiters ++ [w]).length = b.acks.waiters.length + 1 := by simp
    constructor
    · intro i u there
      rcases Table.of_concat there with old | ⟨-, rfl⟩
      · exact sound.counter i u old
      · exact ⟨by simp [fresh], by simp [fresh]⟩
    · intro key i found
      rw [longer]
      exact Nat.lt_succ_of_le (known key i found)
    · intro j d i there found
      rw [longer]
      exact Nat.lt_succ_of_lt (sound.waiter j d i there found)
    · intro j d i u there found here
      rw [getElem?_append_left (sound.waiter j d i there found)] at here
      exact sound.placed j d i u there found here
    · exact sound.distinct
  unfold Acks.waitForAcks
  split
  · exact new _ ⟨rfl, rfl, rfl⟩ _ fun key i found => Nat.le_of_lt (sound.pending key i found)
  · refine new _ ⟨rfl, rfl, rfl⟩ _ ?_
    intro key i found
    rcases Table.of_insert found with ⟨-, rfl⟩ | ⟨-, before⟩
    · exact Nat.le_refl _
    · exact Nat.le_of_lt (sound.pending key i before)

theorem sound_load (ack : AckMessage) : Sound (b.load ack) := by
  -- A call that has only looked up the key has no place yet.
  have early (j : Nat) (d : Delivery) (there : (b.load ack).deliveries[j]? = some d) : b.deliveries[j]? = some d ∨
        d.waiter = b.pending (ackKey ack.ruleID ack.version) ∧ (d.waiter ≠ none → d.stage = .loaded) := by
    rcases Table.of_concat there with old | ⟨-, rfl⟩
    · exact .inl old
    · exact .inr ⟨rfl, fun found => if_neg found⟩
  constructor
  · exact sound.counter
  · exact sound.pending
  · intro j d i there found
    rcases early j d there with old | ⟨looked, -⟩
    · exact sound.waiter j d i old found
    · exact sound.pending _ i (looked ▸ found)
  · intro j d i w there found here
    rcases early j d there with old | ⟨-, loaded⟩
    · exact sound.placed j d i w old found here
    · have stage := loaded (by simp [found])
      exact ⟨fun later => absurd stage later, by simp [stage], by simp [stage]⟩
  · intro j j' d d' i there there' found found' later later' same
    rcases early j d there with old | ⟨-, loaded⟩
    · rcases early j' d' there' with old' | ⟨-, loaded⟩
      · exact sound.distinct j j' d d' i old old' found found' later later' same
      · exact absurd (loaded (by simp [found'])) later'
    · exact absurd (loaded (by simp [found])) later

theorem Sound.setWaiter {i j : Nat} {d d' : Delivery}
    (there : b.deliveries[j]? = some d) (found : d.waiter = some i) (here : b.acks.waiters[i]? = some w)
    (same : d'.waiter = d.waiter) (counter : Counter w') (placed : Placed d' w')
    (others : ∀ d, Placed d w → Placed d w')
    (apart : ∀ (k : Nat) e, k ≠ j → b.deliveries[k]? = some e → e.waiter = some i → e.stage ≠ .loaded →
      e.place ≠ d'.place) :
    Sound (b.setWaiter i w' j d') := by
  constructor
  · intro k u found_u
    rcases Table.of_set found_u with ⟨-, rfl⟩ | ⟨-, old⟩
    · exact counter
    · exact sound.counter k u old
  · intro key k registered
    simpa [Board.setWaiter] using sound.pending key k registered
  · intro k e l found_e waits
    simp only [Board.setWaiter, length_set]
    rcases Table.of_set found_e with ⟨rfl, rfl⟩ | ⟨-, old⟩
    · exact sound.waiter k d l there (same ▸ waits)
    · exact sound.waiter k e l old waits
  · intro k e l u found_e waits found_u
    rcases Table.of_set found_e with ⟨rfl, rfl⟩ | ⟨-, old⟩
    · rw [same, found] at waits
      cases waits
      rcases Table.of_set found_u with ⟨-, rfl⟩ | ⟨other, -⟩
      · exact placed
      · exact absurd rfl other
    · rcases Table.of_set found_u with ⟨rfl, rfl⟩ | ⟨-, old_u⟩
      · exact others e (sound.placed k e l w old waits here)
      · exact sound.placed k e l u old waits old_u
  · intro k k' e e' l found_e found_e' waits waits' later later' equal
    rcases Table.of_set found_e with ⟨rfl, rfl⟩ | ⟨other, old⟩
    · rcases Table.of_set found_e' with ⟨rfl, -⟩ | ⟨other', old'⟩
      · rfl
      · rw [same, found] at waits
        cases waits
        exact absurd equal.symm (apart k' e' other' old' waits' later')
    · rcases Table.of_set found_e' with ⟨rfl, rfl⟩ | ⟨other', old'⟩
      · rw [same, found] at waits'
        cases waits'
        exact absurd equal (apart k e other old waits later)
      · exact sound.distinct k k' e e' l old old' waits waits' later later' equal

theorem sound_add (j : Nat) : Sound (b.add j) := by
  unfold add
  split
  case h_2 => exact sound
  rename_i ack i place there
  split
  case h_2 => exact sound
  rename_i w here
  have counter := sound.counter i w here
  have next : w.received + 1 = Int32.ofNat (w.counted.length + 1) := by
    rw [counter.received, Int32.ofNat_add]
    rfl
  refine sound.setWaiter there rfl here rfl ⟨?_, counter.sent⟩ ⟨?_, ?_, nofun⟩ ?_ ?_
  · simp [Waiter.add, next]
  · exact fun _ => ⟨w.counted.length, rfl, getElem?_concat_length⟩
  · rintro n ⟨⟩
    exact next
  · refine fun d placed => ⟨fun later => ?_, placed.number, placed.filled⟩
    obtain ⟨k, at_k, own⟩ := placed.own later
    exact ⟨k, at_k, Table.append_left own⟩
  · intro k e _ found waits later
    obtain ⟨l, at_l, own⟩ := (sound.placed k e i w found waits here).own later
    have := Table.lt_length own
    dsimp only
    omega

theorem sound_offer (j : Nat) : Sound (b.offer j) := by
  unfold offer
  split
  case h_2 => exact sound
  rename_i ack i n place there
  split
  case h_2 => exact sound
  rename_i w here
  have counter := sound.counter i w here
  have placed := sound.placed j _ i w there rfl here
  have number : n = Int32.ofNat place := placed.number n rfl
  have stays (full : w.done ≠ none) : (w.offer n).done ≠ none := by
    simp [Waiter.offer, full]
  refine sound.setWaiter there rfl here rfl ⟨counter.received, ?_⟩ ⟨fun _ => placed.own nofun, nofun, ?_⟩ ?_ ?_
  · intro m sent
    simp only [Waiter.offer] at sent ⊢
    split at sent
    next large =>
      cases sent
      exact ⟨n, rfl, large.1⟩
    next => exact counter.sent m sent
  · intro _ large
    left
    have enough : Int32.ofInt w.quorum ≤ n := number ▸ large
    by_cases empty : w.done = none
    · simp [Waiter.offer, empty, enough]
    · exact stays empty
  · refine fun d placed => ⟨placed.own, placed.number, fun finished large => ?_⟩
    exact (placed.filled finished large).imp stays id
  · intro k e other found waits later equal
    exact other (sound.distinct k j e _ i found there waits rfl later nofun equal)

theorem sound_step (event : Event) : Sound (b.step event) := by
  cases event with
  | wait ruleID version requested alive => exact sound_wait sound ruleID version requested alive
  | load ack => exact sound_load sound ack
  | add j => exact sound_add sound j
  | offer j => exact sound_offer sound j
  | wake i | expire i =>
    simp only [step, wake, expire]
    split
    next => exact sound
    next w here =>
      split
      next => refine sound_finish sound here ⟨rfl, rfl, rfl⟩ ?_ ?_ <;> simp [Waiter.wake, Waiter.expire]
      next => exact sound
  | delete i => exact sound_delete sound i

end

theorem sound_run (sound : b.Sound) (events : List Event) : Sound (component.after b events) :=
  Component.after_of_invariant (P := Sound) sound fun _ sound => sound_step sound _

/-! ## The quorum of a wait -/

theorem quorum_after (b : Board) (events : List Event) :
    b.acks.waiters.map (·.quorum) <+: (component.after b events).acks.waiters.map (·.quorum) := by
  induction events generalizing b with
  | nil => exact prefix_rfl
  | cons event events ih => exact (quorum_step b event).trans (ih (b.step event))

/-- `handleAck` has returned for an ack of a node, which a wait counts. -/
def CountedBy (b : Board) (i : Nat) (node : String) : Prop := ∃ (j : Nat) (d : Delivery),
  b.deliveries[j]? = some d ∧ d.waiter = some i ∧ d.stage = .returned ∧ d.ack.nodeID = node

/-- As many nodes whose acks are counted as there are places: one of them is far enough. -/
theorem exists_place {w : Waiter} {nodes : Finset String} (sound : b.Sound) (here : b.acks.waiters[i]? = some w)
    (some_node : nodes.Nonempty) (counted : ∀ node ∈ nodes, b.CountedBy i node) :
    ∃ (j : Nat) (d : Delivery), b.deliveries[j]? = some d ∧ d.waiter = some i ∧ d.stage = .returned ∧
      nodes.card ≤ d.place := by
  obtain ⟨node, member⟩ := some_node
  have : Nonempty Delivery := (counted node member).choose_spec.nonempty
  choose! j d there waits finished own using counted
  by_contra! short
  have maps (node : String) (member : node ∈ nodes) : (d node).place ∈ Finset.Ico 1 nodes.card := by
    have placed := sound.placed (j node) (d node) i w (there node member) (waits node member) here
    obtain ⟨k, at_k, -⟩ := placed.own (by simp [finished node member])
    have below := short (j node) (d node) (there node member) (waits node member) (finished node member)
    exact Finset.mem_Ico.mpr ⟨by omega, below⟩
  have fewer : (Finset.Ico 1 nodes.card).card < nodes.card := by
    have := Finset.card_pos.mpr ⟨node, member⟩
    rw [Nat.card_Ico]
    omega
  obtain ⟨x, x_in, y, y_in, differ, same⟩ := Finset.exists_ne_map_eq_of_card_lt_of_maps_to fewer maps
  have index := sound.distinct (j x) (j y) (d x) (d y) i (there x x_in) (there y y_in) (waits x x_in)
    (waits y y_in) (by simp [finished x x_in]) (by simp [finished y y_in]) same
  have same_call : d x = d y := by
    have found := there x x_in
    rw [index, there y y_in] at found
    exact (Option.some.inj found).symm
  exact differ ((own x x_in).symm.trans (same_call ▸ own y y_in))

/-! ## Distributing a plan -/

end

/-- Every ack for a rule and version that arrives is counted by a wait. -/
def AllCounted (events : List Event) (ruleID : String) (version : UInt64) (i : Nat) : Prop :=
  ∀ ack found, (ack, found) ∈ arrivals b events → ack.ruleID = ruleID → ack.version = version → found = some i

/-- `handleAck` has returned for an ack of a node, which arrived after the first calls. -/
def Confirmed (ruleID : String) (version : UInt64) (first : Nat) (node : String) : Prop :=
  ∃ (j : Nat) (d : Delivery), first ≤ j ∧ b.deliveries[j]? = some d ∧ d.ack.nodeID = node ∧
    d.ack.ruleID = ruleID ∧ d.ack.version = version ∧ d.stage = .returned

section

variable {b : Board} {ruleID : String} {version : UInt64} {alive : Option Nat} {quorum : Int}

theorem step_wait (b : Board) (resolved : resolveQuorum ruleID version 0 alive = .ok quorum) :
    let registered := b.step (.wait ruleID version 0 alive)
    registered.pending (ackKey ruleID version) = some b.acks.waiters.length ∧
      registered.acks.waiters = b.acks.waiters ++ [{ ruleID, version, requested := 0, alive, quorum }] := by
  simp only [step, Acks.waitForAcks, resolved]
  exact ⟨AList.lookup_insert .., trivial⟩

variable {i : Nat}

theorem lt_of_arrivals {events : List Event} {ack : AckMessage} (sound : b.Sound)
    (arrives : (ack, some i) ∈ arrivals b events) : i < (component.after b events).acks.waiters.length := by
  obtain ⟨before, later, rfl, found⟩ := mem_arrivals.mp arrives
  have there := (sound_run sound before).pending _ i found.symm
  rw [Component.after_append]
  exact Nat.lt_of_lt_of_le there (by simpa using (quorum_after _ (_ :: later)).length_le)

theorem load_arrives (b : Board) (before later : List Event) (ack : AckMessage) :
    (ack, (component.after b before).pending (ackKey ack.ruleID ack.version)) ∈
      arrivals b (before ++ .load ack :: later) :=
  mem_arrivals.mpr ⟨before, later, rfl, rfl⟩

/-- The acks that arrive while the plan is published are not counted, and the others are as long
as nobody else waits. -/
theorem allCounted_iff (sound : b.Sound) (during waiting : List Event)
    (resolved : resolveQuorum ruleID version 0 alive = .ok quorum) :
    let published := component.after b during
    let registered := published.step (.wait ruleID version 0 alive)
    b.AllCounted (during ++ .wait ruleID version 0 alive :: waiting) ruleID version published.acks.waiters.length ↔
      (∀ ack, .load ack ∈ during → ¬ (ack.ruleID = ruleID ∧ ack.version = version)) ∧
        ∀ before ack later, waiting = before ++ .load ack :: later → ack.ruleID = ruleID → ack.version = version →
          component.Throughout (fun b event => ¬ b.Touches (ackKey ruleID version) event) registered before := by
  intro published registered
  obtain ⟨found, waiters⟩ := step_wait published resolved
  have known : published.acks.waiters.length < registered.acks.waiters.length := by
    rw [waiters]
    simp
  have split : arrivals b (during ++ .wait ruleID version 0 alive :: waiting) =
      arrivals b during ++ arrivals registered waiting := arrivals_append ..
  constructor
  · intro all
    refine ⟨?_, ?_⟩
    · rintro ack member ⟨rule, number⟩
      obtain ⟨before, later, rfl⟩ := append_of_mem member
      have early := load_arrives b before later ack
      have counted := all ack _ (split ▸ mem_append_left _ early) rule number
      rw [counted] at early
      exact absurd (lt_of_arrivals sound early) (Nat.lt_irrefl _)
    · rintro before ack later rfl rule number
      have late := load_arrives registered before later ack
      have counted := all ack _ (split ▸ mem_append_right _ late) rule number
      rw [rule, number] at counted
      exact (pending_after before known found).mp counted
  · rintro ⟨none_early, undisturbed⟩ ack counter arrives rule number
    rw [split, mem_append] at arrives
    rcases arrives with early | late
    · obtain ⟨before, later, rfl, -⟩ := mem_arrivals.mp early
      exact absurd ⟨rule, number⟩ (none_early ack (by simp))
    · obtain ⟨before, later, rfl, rfl⟩ := mem_arrivals.mp late
      rw [rule, number]
      exact (pending_after before known found).mpr (undisturbed before ack later rfl rule number)

/-- The call of `handleAck` for an ack that arrived in a period has found the wait that counts it. -/
theorem Confirmed.counted {events : List Event} {node : String} (all : b.AllCounted events ruleID version i)
    (confirmed : (component.after b events).Confirmed ruleID version b.deliveries.length node) :
    (component.after b events).CountedBy i node := by
  obtain ⟨j, d, late, there, own, rule, number, finished⟩ := confirmed
  refine ⟨j, d, there, ?_, finished, own⟩
  have arrived : (component.after b events).arrived[j]? = some (d.ack, d.waiter) := by
    simp [Board.arrived, there]
  rw [arrived_after, getElem?_append_right (by simpa [Board.arrived] using late)] at arrived
  exact all d.ack d.waiter (mem_of_getElem? arrived) rule number

theorem ofInt_le_ofNat {quorum : Int} {place : Nat} (positive : 0 < quorum) (small : place < 2 ^ 31)
    (enough : quorum ≤ place) : Int32.ofInt quorum ≤ Int32.ofNat place := by
  rw [Int32.le_iff_toInt_le, Int32.toInt_ofInt_of_le (by omega) (by omega), Int32.toInt_ofNat_of_lt small]
  exact enough

/-- A wait that counts the acks of a quorum and is not over finds a number in the channel, and
returns nil if it takes it. -/
theorem done_of_confirmed {w : Waiter} {nodes : Finset String} (sound : b.Sound)
    (here : b.acks.waiters[i]? = some w) (waiting : w.outcome = none) (positive : 0 < w.quorum)
    (few : w.counted.length < 2 ^ 31) (enough : w.quorum ≤ nodes.card) (counted : ∀ node ∈ nodes, b.CountedBy i node) :
    ∃ n, w.done = some n ∧ (w.wake n).outcome = some .acked := by
  obtain ⟨j, d, there, found, finished, far⟩ := exists_place sound here (Finset.card_pos.mp (by omega)) counted
  have placed := sound.placed j d i w there found here
  obtain ⟨k, at_k, own⟩ := placed.own (by simp [finished])
  have small : d.place < 2 ^ 31 := by
    have := Table.lt_length own
    omega
  have large := ofInt_le_ofNat positive small (by omega)
  obtain ⟨n, sent⟩ : ∃ n, w.done = some n :=
    Option.ne_none_iff_exists'.mp ((placed.filled finished large).resolve_right (not_not.mpr waiting))
  obtain ⟨m, rfl, reached⟩ := (sound.counter i w here).sent n sent
  refine ⟨m.toInt, sent, ?_⟩
  rw [Int32.le_iff_toInt_le, Int32.toInt_ofInt_of_le (by omega) (by omega)] at reached
  simp [Waiter.wake, reached]

/-- The acks for a rule and version that arrive from when `distributePlan` publishes it until its wait is finished are
counted by that wait exactly if none arrives before the wait is registered, and nobody else has stored or deleted the
key when one arrives. Then the wait returns nil if a quorum has sent them. -/
theorem acks_counted (before during waiting : List Event)
    (resolved : resolveQuorum ruleID version 0 alive = .ok quorum) :
    let start := component.after {} before
    let published := component.after start during
    let registered := published.step (.wait ruleID version 0 alive)
    let events := during ++ .wait ruleID version 0 alive :: waiting
    let later := component.after start events
    let i := published.acks.waiters.length
    (start.AllCounted events ruleID version i ↔
      (∀ ack, .load ack ∈ during → ¬ (ack.ruleID = ruleID ∧ ack.version = version)) ∧
        ∀ before ack later, waiting = before ++ .load ack :: later → ack.ruleID = ruleID → ack.version = version →
          component.Throughout (fun b event => ¬ b.Touches (ackKey ruleID version) event) registered before) ∧
      (start.AllCounted events ruleID version i → ∀ w, later.acks.waiters[i]? = some w →
          (∀ node, later.Confirmed ruleID version start.deliveries.length node → node ∈ w.counted) ∧
            ∀ nodes : Finset String, quorum ≤ nodes.card →
              (∀ node ∈ nodes, later.Confirmed ruleID version start.deliveries.length node) →
              w.outcome = none → w.counted.length < 2 ^ 31 →
                ∃ n, w.done = some n ∧ (w.wake n).outcome = some .acked) := by
  intro start published registered events later i
  have sound₀ : start.Sound :=
    sound_run ⟨by simp, by simp [Board.pending], by simp, by simp, by simp⟩ before
  refine ⟨allCounted_iff sound₀ during waiting resolved, ?_⟩
  intro all w here
  have sound : later.Sound := sound_run sound₀ events
  have same : w.quorum = quorum := by
    obtain ⟨rest, grown⟩ := quorum_after registered waiting
    have reached : later = component.after registered waiting := Component.after_append ..
    rw [(step_wait published resolved).2, ← reached] at grown
    have number := congrArg (·[i]?) grown
    simpa [i, here] using number.symm
  constructor
  · intro node confirmed
    obtain ⟨j, d, there, found, finished, rfl⟩ := confirmed.counted all
    obtain ⟨k, -, own⟩ := (sound.placed j d i w there found here).own (by simp [finished])
    exact mem_of_getElem? own
  · intro nodes enough confirmed still few
    exact done_of_confirmed sound here still (same ▸ resolveQuorum_pos resolved) few (same ▸ enough)
      fun node member => (confirmed node member).counted all

/-- A follower answers a wait for it. -/
theorem acks_counted_one :
    let b := component.after {} [.wait "r" 1 0 (some 2), .load ⟨"b", "r", 1, "ok"⟩, .add 0, .offer 0]
    ∃ w n, b.acks.waiters[0]? = some w ∧ w.done = some n ∧ (w.wake n).outcome = some .acked := by
  have resolved : resolveQuorum "r" 1 0 (some 2) = .ok 1 := rfl
  obtain ⟨whole, all⟩ := acks_counted [] [] [.load ⟨"b", "r", 1, "ok"⟩, .add 0, .offer 0] resolved
  have answered : ({} : Board).AllCounted [.wait "r" 1 0 (some 2), .load ⟨"b", "r", 1, "ok"⟩, .add 0, .offer 0]
      "r" 1 0 := by
    refine whole.mpr ⟨nofun, ?_⟩
    -- The ack is the first event after the wait is registered.
    rintro (_ | ⟨_, before⟩) ack later split - -
    · trivial
    · simp [cons_eq_append_iff] at split
  obtain ⟨n, sent, acked⟩ := (all answered _ rfl).2 {"b"} (by decide) (by
    intro node member
    obtain rfl := Finset.mem_singleton.mp member
    exact ⟨0, _, Nat.zero_le _, rfl, rfl, rfl, rfl, rfl⟩) rfl (by decide)
  exact ⟨_, n, rfl, sent, acked⟩

/-- The follower of a cluster of two answers while the plan is published, and the wait fails. It also fails if it
answers after a second wait, and the second one does after the first is finished. -/
theorem acks_lost :
    let ack : AckMessage := ⟨"b", "r", 1, "ok"⟩
    let call := Event.wait "r" 1 0 (some 2)
    let answer := [Event.load ack, .add 0, .offer 0]
    let fails (events : List Event) (i : Nat) := (component.after {} events).acks.waiters[i]?.map (·.outcome) =
      some (some (.failed "plandist: ack timeout for r v1 (got 0/1)"))
    fails (answer ++ [call, .expire 0]) 0 ∧ fails ([call, call] ++ answer ++ [.expire 0]) 0 ∧
      fails ([call, call, .expire 0, .delete 0] ++ answer ++ [.expire 1]) 1 := by
  decide

end

end Board

end FlowRulZ.Plandist
