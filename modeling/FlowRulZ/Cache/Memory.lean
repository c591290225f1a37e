import FlowRulZ.Lib.Component

/-! # The memory cache

`Get` looks at what it has read after its lock is released, and deletes an expired key in a second section, whatever
is stored by then.  What the cache is for is a map in which entries expire by themselves.
-/

namespace FlowRulZ.Cache

open Function

structure Entry where
  value : List UInt8
  expiresAt : Option Nat
  deriving Repr, DecidableEq

def Entry.expired (now : Nat) (e : Entry) : Bool := e.expiresAt.any (· < now)

/-- What `Set` stores; without a positive `ttl` it stays. -/
def Entry.set (now : Nat) (value : List UInt8) (ttl : Int) : Entry :=
  ⟨value, if 0 < ttl then some (now + ttl.toNat) else none⟩

def live (now : Nat) (e : Option Entry) : Option Entry := e.filter (!·.expired now)

/-- One section of the lock; `check` is what `Get` does after its first one, and `finish` its second one. -/
inductive Op where
  | wait (duration : Nat)
  | get (call : Nat) (key : String)
  | check (call : Nat)
  | finish (call : Nat)
  | set (key : String) (value : List UInt8) (ttl : Int)
  | delete (key : String)
  | exists_ (key : String)
  | clear
  | evictExpired

inductive Answer where
  | get (value : Option (List UInt8))
  | exists_ (found : Bool)
  deriving Repr, DecidableEq

structure MemoryCache where
  now : Nat := 0
  entries : String → Option Entry := fun _ => none
  reading : Nat → Option (String × Option Entry) := fun _ => none
  deleting : Nat → Option String := fun _ => none

namespace MemoryCache

def handle (c : MemoryCache) : Op → MemoryCache × List Answer
  | .wait duration => ({ c with now := c.now + duration }, [])
  | .get call key => ({ c with reading := update c.reading call (some (key, c.entries key)) }, [])
  | .check call =>
    match c.reading call with
    | none => (c, [])
    | some (key, found) =>
      ({ c with
          reading := update c.reading call none
          deleting := if found.any (·.expired c.now) then update c.deleting call (some key) else c.deleting },
        [.get ((live c.now found).map (·.value))])
  | .finish call =>
    match c.deleting call with
    | none => (c, [])
    | some key => ({ c with entries := update c.entries key none, deleting := update c.deleting call none }, [])
  | .set key value ttl => ({ c with entries := update c.entries key (some (.set c.now value ttl)) }, [])
  | .delete key => ({ c with entries := update c.entries key none }, [])
  | .exists_ key => (c, [.exists_ (c.entries key).isSome])
  | .clear => ({ c with entries := fun _ => none }, [])
  | .evictExpired => ({ c with entries := fun key => live c.now (c.entries key) }, [])

/-- `Exists` meets no expired entry, and the second section of `Get` deletes no other. -/
def Undisturbed (c : MemoryCache) : Op → Prop
  | .exists_ key => live c.now (c.entries key) = c.entries key
  | .finish call => ∀ key ∈ c.deleting call, live c.now (c.entries key) = none
  | _ => True

end MemoryCache

/-- The last `Set` of each key that no `Delete` or `Clear` has followed. -/
structure ExpiringMap where
  now : Nat := 0
  latest : String → Option Entry := fun _ => none
  asked : Nat → Option (Option Entry) := fun _ => none

def ExpiringMap.handle (m : ExpiringMap) : Op → ExpiringMap × List Answer
  | .wait duration => ({ m with now := m.now + duration }, [])
  | .get call key => ({ m with asked := update m.asked call (some (m.latest key)) }, [])
  | .check call =>
    match m.asked call with
    | none => (m, [])
    | some e => ({ m with asked := update m.asked call none }, [.get ((live m.now e).map (·.value))])
  | .set key value ttl => ({ m with latest := update m.latest key (some (.set m.now value ttl)) }, [])
  | .delete key => ({ m with latest := update m.latest key none }, [])
  | .exists_ key => (m, [.exists_ (live m.now (m.latest key)).isSome])
  | .clear => ({ m with latest := fun _ => none }, [])
  | .finish _ | .evictExpired => (m, [])

def cache : Component MemoryCache Op Answer := ⟨MemoryCache.handle⟩

def expiring : Component ExpiringMap Op Answer := ⟨ExpiringMap.handle⟩

/-- From now on it makes no difference which of the two is looked at. -/
def Agree (now : Nat) (stored latest : Option Entry) : Prop := ∀ t ≥ now, live t stored = live t latest

structure Shows (c : MemoryCache) (m : ExpiringMap) : Prop where
  now : m.now = c.now
  entries (key : String) : Agree c.now (c.entries key) (m.latest key)
  reading (call : Nat) : Option.Rel (fun read e => Agree c.now read.2 e) (c.reading call) (m.asked call)

variable {now t : Nat} {stored latest : Option Entry}

theorem expired_later {e : Entry} (expired : e.expired now = true) (later : now ≤ t) : e.expired t = true := by
  simp only [Entry.expired, Option.any_eq_true, decide_eq_true_eq] at expired ⊢
  obtain ⟨ends, there, past⟩ := expired
  exact ⟨ends, there, by omega⟩

theorem live_live (later : now ≤ t) : live t (live now stored) = live t stored := by
  cases stored with
  | none => rfl
  | some e =>
    cases expired : e.expired now
    · simp [live, Option.filter, expired]
    · simp [live, Option.filter, expired, expired_later expired later]

/-- Entries that have expired may go. -/
theorem Agree.evict (agree : Agree now stored latest) : Agree now (live now stored) latest :=
  fun t later => (live_live later).trans (agree t later)

theorem Agree.wait (agree : Agree now stored latest) (duration : Nat) : Agree (now + duration) stored latest :=
  fun t later => agree t (by omega)

theorem shows_step (c : MemoryCache) (m : ExpiringMap) (op : Op) (shows : Shows c m) (undisturbed : c.Undisturbed op) :
    Shows (c.handle op).1 (m.handle op).1 ∧ (c.handle op).2 = (m.handle op).2 := by
  obtain ⟨_, latest, asked⟩ := m
  obtain ⟨rfl, entries, reading⟩ := id shows
  dsimp only at entries reading
  cases op with
  | wait duration =>
    refine ⟨⟨rfl, fun key => (entries key).wait duration, fun call => ?_⟩, rfl⟩
    have related := reading call
    simp only [MemoryCache.handle, ExpiringMap.handle]
    generalize c.reading call = read, asked call = e at related ⊢
    cases related with
    | none => exact .none
    | some agree => exact .some (agree.wait duration)
  | get call key => exact ⟨⟨rfl, entries, Component.update_related reading call (.some (entries key))⟩, rfl⟩
  | check call =>
    have related := reading call
    simp only [MemoryCache.handle, ExpiringMap.handle]
    generalize c.reading call = read, asked call = e at related ⊢
    cases related with
    | none => exact ⟨shows, rfl⟩
    | some agree =>
      exact ⟨⟨rfl, entries, Component.update_related reading call .none⟩, by simp only [agree c.now (Nat.le_refl _)]⟩
  | finish call =>
    simp only [MemoryCache.handle]
    split
    · exact ⟨shows, rfl⟩
    · rename_i key pending
      refine ⟨⟨rfl, fun other => ?_, reading⟩, rfl⟩
      by_cases same : other = key
      · subst same
        dsimp only
        rw [update_self]
        exact undisturbed other pending ▸ (entries other).evict
      · dsimp only
        rw [update_of_ne same]
        exact entries other
  | set key value ttl => exact ⟨⟨rfl, Component.update_related entries key fun _ _ => rfl, reading⟩, rfl⟩
  | delete key => exact ⟨⟨rfl, Component.update_related entries key fun _ _ => rfl, reading⟩, rfl⟩
  | exists_ key =>
    refine ⟨shows, ?_⟩
    simp only [MemoryCache.handle, ExpiringMap.handle]
    rw [← entries key c.now (Nat.le_refl _), undisturbed]
  | clear => exact ⟨⟨rfl, fun _ _ _ => rfl, reading⟩, rfl⟩
  | evictExpired => exact ⟨⟨rfl, fun key => (entries key).evict, reading⟩, rfl⟩

/-- Undisturbed, the cache answers like a map in which entries expire by themselves. -/
theorem cache_expires (ops : List Op) (undisturbed : cache.Throughout MemoryCache.Undisturbed {} ops) :
    (cache.run {} ops).2 = (expiring.run {} ops).2 :=
  cache.run_eq_of_simulation shows_step ⟨rfl, fun _ _ _ => rfl, fun _ => .none⟩ undisturbed

theorem cache_expires_once : (cache.run {} [.set "a" [1] 5, .get 0 "a", .check 0, .wait 6, .get 0 "a", .check 0]).2 =
    [.get (some [1]), .get none] :=
  (cache_expires [.set "a" [1] 5, .get 0 "a", .check 0, .wait 6, .get 0 "a", .check 0]
    ⟨trivial, trivial, trivial, trivial, trivial, trivial, trivial⟩).trans (by decide)

/-- An expired key exists until it is evicted; a `Get` that has found one expired deletes what was set since. -/
theorem cache_disturbed : [[Op.set "a" [1] 5, .wait 6, .exists_ "a"],
      [.set "a" [1] 5, .wait 6, .get 0 "a", .check 0, .set "a" [2] 0, .finish 0, .get 0 "a", .check 0]].map
        (fun ops => ((cache.run {} ops).2, (expiring.run {} ops).2)) =
      [([.exists_ true], [.exists_ false]), ([.get none, .get none], [.get none, .get (some [2])])] := by
  decide

end FlowRulZ.Cache
