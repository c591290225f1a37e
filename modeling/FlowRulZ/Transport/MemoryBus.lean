import FlowRulZ.Lib.Component
import FlowRulZ.Lib.Table
import FlowRulZ.Lib.Text

/-! # Subscriptions on the memory bus

A subscription's id is its topic and the number of handlers the topic has at the time, and the
handlers of a topic are a map by id.  After a removal a new subscription can therefore get the
id of one that is still there, and take its place in the map.
-/

namespace FlowRulZ.Transport

open List

structure Subscription where
  id : String
  topic : String
  deriving DecidableEq, Repr

/-- The bus, with all subscriptions that were made, and the numbers of those not removed. The map of maps is one map by
topic and id, and a handler is the number of its subscription. -/
structure Bus where
  handlers : AList fun _ : Subscription => Nat := ∅
  made : List Subscription := []
  live : List Nat := []

/-- A `Request` subscribes and publishes; its deferred `Unsubscribe` is a call of its own. -/
inductive Call where
  | subscribe (topic : String)
  | unsubscribe (number : Nat)
  | request (topic : String)

def subID (topic : String) (n : Nat) : String := s!"sub-{topic}-{n}"

namespace Bus

def onTopic (b : Bus) (topic : String) : List (Sigma fun _ : Subscription => Nat) :=
  b.handlers.entries.filter (·.1.topic = topic)

/-- The handlers that `Publish` dispatches a message to. -/
def publish (b : Bus) (topic : String) : List Nat := (b.onTopic topic).map (·.2)

def next (b : Bus) (topic : String) : Subscription := ⟨subID topic (b.onTopic topic).length, topic⟩

def subscribe (b : Bus) (topic : String) : Bus where
  handlers := b.handlers.insert (b.next topic) b.made.length
  made := b.made ++ [b.next topic]
  live := b.live ++ [b.made.length]

/-- The handler removed is the first one found, on whatever topic, under the subscription's id. -/
def unsubscribe (b : Bus) (number : Nat) : Bus :=
  match b.made[number]? with
  | none => b
  | some sub =>
    { b with
      handlers := match b.handlers.keys.find? (·.id = sub.id) with
        | some found => b.handlers.erase found
        | none => b.handlers
      live := b.live.filter (· ≠ number) }

def replyTopic (topic : String) : String := topic ++ ".reply"

/-- Calls of any clients, with the handlers dispatched to as outputs. -/
def component : Component Bus Call Nat where
  handle b
    | .subscribe topic => (b.subscribe topic, [])
    | .unsubscribe number => (b.unsubscribe number, [])
    | .request topic => (b.subscribe (replyTopic topic), (b.subscribe (replyTopic topic)).publish topic)

/-- The ids of live subscriptions differ, and a message is dispatched once to each live
subscription of its topic, and to no other. -/
def Independent (b : Bus) : Prop :=
  (∀ j ∈ b.live, ∀ k ∈ b.live, b.made[j]?.map (·.id) = b.made[k]?.map (·.id) → j = k) ∧
  ∀ topic, (b.publish topic).Nodup ∧ ∀ k, k ∈ b.publish topic ↔ k ∈ b.live ∧ b.made[k]?.map (·.topic) = some topic

/-- A new subscription's id is not taken, and one that is removed again has left no id in use. -/
def Fresh (b : Bus) : Call → Prop
  | .subscribe topic => b.next topic ∉ b.handlers
  | .request topic => b.next (replyTopic topic) ∉ b.handlers
  | .unsubscribe number => number ∈ b.live ∨ ∀ sub ∈ b.made[number]?, sub ∉ b.handlers

/-- The handlers are those of the live subscriptions. -/
structure Valid (b : Bus) : Prop where
  handled : ∀ sub k, b.handlers.lookup sub = some k ↔ k ∈ b.live ∧ b.made[k]? = some sub
  known : ∀ k ∈ b.live, k < b.made.length
  numbered : ∀ sub ∈ b.made, ∃ n, sub.id = subID sub.topic n

end Bus

theorem subID_inj {topic topic' : String} {n n' : Nat} (same : subID topic n = subID topic' n') : topic = topic' := by
  have chars := congrArg String.toList same
  simp [subID, toString, Nat.repr_eq_ofList_toDigits] at chars
  exact String.toList_inj.mp (Text.append_number_inj (by decide) chars).1

namespace Bus

variable {b : Bus} {sub sub' : Subscription} {j k : Nat}

theorem Valid.eq_of_id (valid : b.Valid) (made : sub ∈ b.made) (made' : sub' ∈ b.made) (same : sub.id = sub'.id) :
    sub = sub' := by
  obtain ⟨n, shape⟩ := valid.numbered sub made
  obtain ⟨n', shape'⟩ := valid.numbered sub' made'
  have topics := subID_inj (shape.symm.trans (same.trans shape'))
  cases sub
  cases sub'
  simp_all

theorem mem_publish {topic : String} :
    k ∈ b.publish topic ↔ ∃ sub, b.handlers.lookup sub = some k ∧ sub.topic = topic := by
  simp only [publish, onTopic, mem_map, mem_filter, AList.mem_lookup_iff.symm, Sigma.exists, Option.mem_def]
  grind

section

variable (valid : b.Valid)
include valid

theorem Valid.made_of_mem (there : sub ∈ b.handlers) : sub ∈ b.made := by
  obtain ⟨k, found⟩ := Option.isSome_iff_exists.mp (AList.lookup_isSome.mpr there)
  exact mem_of_getElem? ((valid.handled sub k).mp found).2

theorem Valid.unsubscribe_handlers (made : b.made[k]? = some sub) :
    (b.unsubscribe k).handlers = b.handlers.erase sub := by
  simp only [unsubscribe, made]
  cases first : b.handlers.keys.find? (·.id = sub.id) with
  | none =>
    have absent : sub ∉ b.handlers := fun there => by simpa using find?_eq_none.mp first sub there
    exact AList.ext (kerase_of_notMem_keys absent).symm
  | some found =>
    have there := mem_of_find?_eq_some first
    have same := find?_some first
    rw [valid.eq_of_id (valid.made_of_mem there) (mem_of_getElem? made) (by simpa using same)]

theorem Valid.nodup_publish (topic : String) : (b.publish topic).Nodup := by
  refine List.Nodup.map_on ?_ (b.handlers.nodupKeys.nodup.filter _)
  rintro ⟨sub, k⟩ here ⟨sub', _⟩ there rfl
  have found := (valid.handled sub k).mp (AList.mem_lookup_iff.mpr (mem_of_mem_filter here))
  have found' := (valid.handled sub' k).mp (AList.mem_lookup_iff.mpr (mem_of_mem_filter there))
  grind

theorem Valid.independent : b.Independent := by
  refine ⟨fun j live k live' same => ?_, fun topic => ⟨valid.nodup_publish topic, fun k => ?_⟩⟩
  · rw [getElem?_eq_getElem (valid.known j live), getElem?_eq_getElem (valid.known k live')] at same
    have one := valid.eq_of_id (getElem_mem _) (getElem_mem _) (Option.some.inj same)
    have found := (valid.handled _ j).mpr ⟨live, getElem?_eq_getElem (valid.known j live)⟩
    have found' := (valid.handled _ k).mpr ⟨live', getElem?_eq_getElem (valid.known k live')⟩
    exact Option.some.inj (found.symm.trans (one ▸ found'))
  · rw [mem_publish]
    grind [valid.handled]

theorem Valid.subscribe (topic : String) : ((b.subscribe topic).Independent → b.next topic ∉ b.handlers) ∧
      (b.next topic ∉ b.handlers → (b.subscribe topic).Valid) := by
  have known := valid.known
  refine ⟨fun independent taken => ?_, fun free => ⟨fun sub k => ?_, ?_, ?_⟩⟩
  · obtain ⟨j, found⟩ := Option.isSome_iff_exists.mp (AList.lookup_isSome.mpr taken)
    obtain ⟨live, made⟩ := (valid.handled _ j).mp found
    have before := known j live
    have same := independent.1 j (by simp [Bus.subscribe, live]) b.made.length (by simp [Bus.subscribe])
      (by simp [Bus.subscribe, getElem?_append_left before, made])
    omega
  · have absent := AList.lookup_eq_none.mpr free
    simp only [Bus.subscribe]
    grind [valid.handled, AList.lookup_insert, AList.lookup_insert_ne]
  · grind [Bus.subscribe]
  · grind [Bus.subscribe, Bus.next, valid.numbered]

theorem Valid.unsubscribe (number : Nat) : ((b.unsubscribe number).Independent → b.Fresh (.unsubscribe number)) ∧
      (b.Fresh (.unsubscribe number) → (b.unsubscribe number).Valid) := by
  cases made : b.made[number]? with
  | none =>
    have same : b.unsubscribe number = b := by simp [Bus.unsubscribe, made]
    rw [same]
    exact ⟨fun _ => .inr (by simp [made]), fun _ => valid⟩
  | some sub =>
    have handlers := valid.unsubscribe_handlers made
    have live : (b.unsubscribe number).live = b.live.filter (· ≠ number) := by simp [Bus.unsubscribe, made]
    have kept : (b.unsubscribe number).made = b.made := by simp [Bus.unsubscribe, made]
    refine ⟨fun independent => ?_, fun fresh => ⟨fun sub' k => ?_, ?_, ?_⟩⟩
    · by_contra stale
      simp only [Fresh, made, not_or, not_forall, not_not, Option.mem_some] at stale
      obtain ⟨removed, _, rfl, taken⟩ := stale
      obtain ⟨j, found⟩ := Option.isSome_iff_exists.mp (AList.lookup_isSome.mpr taken)
      obtain ⟨lives, there⟩ := (valid.handled _ j).mp found
      have listed := ((independent.2 sub.topic).2 j).mpr (by grind)
      obtain ⟨sub', found', -⟩ := mem_publish.mp listed
      rw [handlers] at found'
      grind [valid.handled]
    · rw [handlers]
      by_cases same : sub' = sub
      · subst same
        have taken : b.handlers.lookup sub' = some k → sub' ∈ b.handlers :=
          fun found => AList.lookup_isSome.mp (found ▸ rfl)
        have own := valid.handled sub' number
        grind [Fresh, valid.handled]
      · rw [AList.lookup_erase_ne same, valid.handled]
        grind
    · have known := valid.known
      grind
    · grind [valid.numbered]

end

end Bus

theorem subscriptions_independent_iff (calls : List Call) :
    Bus.component.Always Bus.Independent {} calls ↔ Bus.component.Throughout Bus.Fresh {} calls := by
  refine Component.always_iff_throughout_of_step _ (I := Bus.Valid) (fun _ => Bus.Valid.independent) ?_ ?_
  · intro b call valid
    cases call with
    | subscribe topic => exact valid.subscribe topic
    | request topic => exact valid.subscribe _
    | unsubscribe number => exact valid.unsubscribe number
  · exact ⟨by simp, by simp, by simp⟩

/-- The third request takes the id, and the place, of the second one, which still waits for its reply. -/
theorem request_loses_reply : ¬ Bus.component.Always Bus.Independent {}
      [.request "orders", .request "orders", .unsubscribe 0, .request "orders"] := by
  intro always
  have second := (always.last.2 "orders.reply").2 1
  revert second
  decide +kernel

end FlowRulZ.Transport
