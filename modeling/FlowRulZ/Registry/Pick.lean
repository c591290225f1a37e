import FlowRulZ.Lib.Component
import FlowRulZ.Lib.Float64
import Mathlib.Data.List.Rotate

/-! # Picking an endpoint

`PickWithStrategy` picks one of the healthy endpoints of a service.  For round robin it counts the picks of a service.
-/

open List Function

namespace FlowRulZ.Registry

inductive LBStrategy where
  | roundRobin
  | localPrefer
  | leastLoaded
  /-- `random`, and every name that is not known. -/
  | other
  deriving Repr, DecidableEq

structure Endpoint where
  nodeID : String
  healthy : Bool
  load : XRat

structure ServiceRegistry where
  services : String → Option (List Endpoint)
  roundRobin : String → Option UInt64
  localNodeID : String
  /-- The verb `%q`. -/
  quote : String → String

structure Pick where
  name : String
  strategy : LBStrategy
  random : Nat

def Pick.inTurn (name : String) (pick : Pick) : Bool := pick.name = name ∧ pick.strategy = .roundRobin

namespace ServiceRegistry

variable (r : ServiceRegistry) (name : String)

def healthy : List Endpoint := ((r.services name).getD []).filter (·.healthy)

def nth {α : Type*} (l : List α) (x : α) (n : Nat) : α := l.getD (n % l.length) x

def counter : UInt64 := (r.roundRobin name).getD 0

def pickWithStrategy (pick : Pick) : ServiceRegistry × Except String Endpoint :=
  if (r.services pick.name).isNone then (r, .error s!"registry: service {r.quote pick.name} not found")
  else
    match r.healthy pick.name with
    | [] => (r, .error s!"registry: no healthy endpoints for {r.quote pick.name}")
    | first :: rest =>
      match pick.strategy with
      | .roundRobin =>
        let next := r.counter pick.name + 1
        ({ r with roundRobin := update r.roundRobin pick.name (some next) }, .ok (nth (first :: rest) first next.toNat))
      | .localPrefer =>
        let near := (first :: rest).find? fun ep => ep.nodeID = "" ∨ ep.nodeID = r.localNodeID
        (r, .ok (near.getD (nth (first :: rest) first pick.random)))
      | .leastLoaded =>
        (r, .ok (rest.foldl (fun selected ep => if ep.load.lt selected.load then ep else selected) first))
      | .other => (r, .ok (nth (first :: rest) first pick.random))

def picks : Component ServiceRegistry Pick (Except String Endpoint) where
  handle r pick := ((r.pickWithStrategy pick).1, [(r.pickWithStrategy pick).2])

theorem map_range_rotate {α : Type*} (l : List α) (x : α) (c : Nat) :
    ((range l.length).map fun i => nth l x (c + i)) = l.rotate c := by
  refine ext_getElem (by simp) fun i inside _ => ?_
  have positive : 0 < l.length := by
    simp at inside
    omega
  simp [nth, getElem_rotate, Nat.add_comm, Nat.mod_lt _ positive]

/-- Going round a list some times. -/
theorem map_range_perm {α : Type*} (l : List α) (x : α) (k : Nat) : ∀ c,
    ((range (l.length * k)).map fun i => nth l x (c + i)).Perm (replicate k l).flatten := by
  induction k with
  | zero => simp
  | succ k ih =>
    intro c
    rw [Nat.mul_succ, Nat.add_comm, range_add, map_append, map_range_rotate, map_map, replicate_succ, flatten_cons]
    refine (rotate_perm l c).append ?_
    simpa [comp_def, Nat.add_assoc] using ih (c + l.length)

variable {r name} {first : Endpoint} {rest : List Endpoint} {pick : Pick}

theorem pick_inTurn (some : r.healthy name = first :: rest) (inTurn : pick.inTurn name = true) :
    r.pickWithStrategy pick = ({ r with roundRobin := update r.roundRobin name (.some (r.counter name + 1)) },
      .ok (nth (first :: rest) first (r.counter name + 1).toNat)) := by
  obtain ⟨rfl, strategy⟩ : pick.name = name ∧ pick.strategy = .roundRobin := by simpa [Pick.inTurn] using inTurn
  have known : (r.services pick.name).isNone = false := by
    cases found : r.services pick.name with
    | none => simp [healthy, found] at some
    | some eps => rfl
  simp only [pickWithStrategy, known, some, strategy]
  rfl

theorem picks_run (calls : List Pick) : ∀ {r : ServiceRegistry}, r.healthy name = first :: rest →
    (∀ pick ∈ calls, pick.inTurn name = true) → (r.counter name).toNat + calls.length < 2 ^ 64 →
    (picks.run r calls).2 = ((range calls.length).map fun i =>
      nth (first :: rest) first ((r.counter name).toNat + 1 + i)).map .ok := by
  induction calls with
  | nil => exact fun _ _ _ => rfl
  | cons pick calls ih =>
    intro r some all small
    obtain ⟨inTurn, all⟩ := forall_mem_cons.mp all
    have picked := pick_inTurn some inTurn
    rw [length_cons] at small ⊢
    have next : (r.counter name + 1).toNat = (r.counter name).toNat + 1 := by
      rw [UInt64.toNat_add]
      exact Nat.mod_eq_of_lt (by simp; omega)
    have counted : (r.pickWithStrategy pick).1.counter name = r.counter name + 1 := by simp [picked, counter]
    have later := @ih (r.pickWithStrategy pick).1 (by rw [picked]; exact some) all (by rw [counted, next]; omega)
    rw [counted, next] at later
    change (r.pickWithStrategy pick).2 :: (picks.run (r.pickWithStrategy pick).1 calls).2 = _
    rw [later, picked, next, range_succ_eq_map]
    simp [comp_def, Nat.add_right_comm, Nat.add_assoc]

/-- If the calls are `k` times as many as the healthy endpoints, they return each of these `k` times, whatever the
counter was. -/
theorem round_robin_fair (r : ServiceRegistry) (name : String) (calls : List Pick) (k : Nat) (some : r.healthy name ≠ [])
    (inTurn : ∀ pick ∈ calls, pick.inTurn name = true) (many : calls.length = (r.healthy name).length * k)
    (small : (r.counter name).toNat + (r.healthy name).length * k < 2 ^ 64) :
    (picks.run r calls).2.Perm ((replicate k (r.healthy name)).flatten.map .ok) := by
  obtain ⟨first, rest, split⟩ := exists_cons_of_ne_nil some
  rw [← many] at small
  rw [picks_run calls split inTurn small, many, split]
  exact (map_range_perm ..).map _

def twoEndpoints : ServiceRegistry where
  services _ := some [⟨"a", true, .fin 0⟩, ⟨"b", false, .fin 0⟩, ⟨"c", true, .fin 0⟩]
  roundRobin _ := some 6
  localNodeID := "a"
  quote := id

theorem round_robin_fair_two : (picks.run twoEndpoints (replicate 2 ⟨"s", .roundRobin, 0⟩)).2.Perm
    [.ok ⟨"a", true, .fin 0⟩, .ok ⟨"c", true, .fin 0⟩] :=
  round_robin_fair twoEndpoints "s" _ 1 (by simp [healthy, twoEndpoints]) (by decide) rfl (by decide)

end ServiceRegistry

end FlowRulZ.Registry
