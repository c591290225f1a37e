import FlowRulZ.Bytecode.Plan

/-! # The dedup tracker

`DedupTracker` is a map from keys to entries and a list of the keys, the last one marked in
front.  An entry holds the element of its key in the list; elements are numbered here, in the
order in which they are made.  Times are in nanoseconds.
-/

open List

namespace FlowRulZ.Dedup

structure DedupEntry where
  key : String
  timestamp : Nat
  elem : Nat
  deriving Repr, DecidableEq

structure DedupTracker where
  entries : List DedupEntry := []
  order : List (Nat × String) := []
  fresh : Nat := 0
  maxSize : Nat
  maxSize_pos : 0 < maxSize
  ttl : Nat

theorem default_pos : 0 < 10000 := by decide

theorem toNat_pos {maxSize : Int} (given : ¬ maxSize ≤ 0) : 0 < maxSize.toNat := by omega

/-- `NewDedupTracker`, with defaults of 10000 keys and 5 minutes. -/
def newDedupTracker (maxSize ttl : Int) : DedupTracker :=
  let ttl : Nat := if ttl ≤ 0 then 300000000000 else ttl.toNat
  if given : maxSize ≤ 0 then { maxSize := 10000, maxSize_pos := default_pos, ttl }
  else { maxSize := maxSize.toNat, maxSize_pos := toNat_pos given, ttl }

namespace DedupTracker

variable (dt : DedupTracker)

def seen (key : String) : Bool := dt.entries.any (·.key = key)

/-- The entry gets a new timestamp, and its element goes to the front. -/
def touch (now : Nat) (existing : DedupEntry) : DedupTracker :=
  { dt with
    entries := dt.entries.map fun entry =>
      if entry.key = existing.key then { existing with timestamp := now } else entry
    order := (dt.order.find? (·.1 = existing.elem)).toList ++ dt.order.filter (·.1 ≠ existing.elem) }

def evictOldest : DedupTracker :=
  match dt.order.getLast? with
  | none => dt
  | some (_, oldestKey) =>
    { dt with
      order := dt.order.dropLast
      entries := dt.entries.filter (·.key ≠ oldestKey) }

def pushFront (now : Nat) (key : String) : DedupTracker :=
  { dt with
    order := (dt.fresh, key) :: dt.order
    entries := dt.entries ++ [⟨key, now, dt.fresh⟩]
    fresh := dt.fresh + 1 }

def markLocked (now : Nat) (key : String) : DedupTracker :=
  match dt.entries.find? (·.key = key) with
  | some existing => dt.touch now existing
  | none =>
    if dt.maxSize ≤ dt.entries.length then dt.evictOldest.pushFront now key
    else dt.pushFront now key

/-- `CheckAndMark`: whether the key was there. -/
def checkAndMark (now : Nat) (key : String) : DedupTracker × Bool :=
  match dt.entries.find? (·.key = key) with
  | some existing => (dt.touch now existing, true)
  | none => (dt.markLocked now key, false)

/-- A pass of `StartCleanup`. -/
def cleanup (now : Nat) : DedupTracker :=
  let old := dt.entries.filter fun entry => dt.ttl < now - entry.timestamp
  { dt with
    order := dt.order.filter fun node => !old.any (·.elem = node.1)
    entries := dt.entries.filter fun entry => ¬ dt.ttl < now - entry.timestamp }

section

variable {dt} {now : Nat} {key other : String}

theorem seen_iff : dt.seen key = true ↔ ∃ entry ∈ dt.entries, entry.key = key := by
  simp [seen]

theorem find_none (unseen : dt.seen key = false) : dt.entries.find? (·.key = key) = none := by
  simpa [seen] using unseen

theorem find_some (there : dt.seen key = true) :
    ∃ entry, dt.entries.find? (·.key = key) = some entry ∧ entry.key = key := by
  obtain ⟨entry, member, same⟩ := seen_iff.mp there
  cases found : dt.entries.find? (·.key = key) with
  | none =>
    rw [find?_eq_none] at found
    exact absurd same (by simpa using found entry member)
  | some first => exact ⟨first, rfl, by simpa using find?_some found⟩

theorem seen_touch {existing : DedupEntry} : (dt.touch now existing).seen key = true ↔ dt.seen key = true := by
  simp only [seen_iff, touch, mem_map]
  constructor
  · rintro ⟨_, ⟨entry, member, rfl⟩, same⟩
    refine ⟨entry, member, ?_⟩
    split_ifs at same with own
    · exact own.trans same
    · exact same
  · rintro ⟨entry, member, same⟩
    refine ⟨_, ⟨entry, member, rfl⟩, ?_⟩
    split_ifs with own
    · exact own.symm.trans same
    · exact same

theorem seen_pushFront : (dt.pushFront now key).seen other = true ↔ dt.seen other = true ∨ other = key := by
  simp only [seen_iff, pushFront, mem_append, mem_singleton, or_and_right, exists_or, exists_eq_left]
  exact or_congr_right eq_comm

theorem seen_evictOldest (there : dt.evictOldest.seen key = true) : dt.seen key = true := by
  unfold evictOldest at there
  split at there
  · exact there
  · obtain ⟨entry, member, same⟩ := seen_iff.mp there
    exact seen_iff.mpr ⟨entry, mem_of_mem_filter member, same⟩

theorem seen_cleanup (there : (dt.cleanup now).seen key = true) : dt.seen key = true := by
  obtain ⟨entry, member, same⟩ := seen_iff.mp there
  exact seen_iff.mpr ⟨entry, mem_of_mem_filter member, same⟩

theorem checkAndMark_seen (dt : DedupTracker) (now : Nat) (key : String) :
    (dt.checkAndMark now key).2 = dt.seen key := by
  unfold checkAndMark
  cases there : dt.seen key with
  | false => rw [find_none there]
  | true =>
    obtain ⟨entry, found, -⟩ := find_some there
    rw [found]

theorem seen_checkAndMark (dt : DedupTracker) (now : Nat) (key : String) : (dt.checkAndMark now key).1.seen key = true ∧
      (∀ other, (dt.checkAndMark now key).1.seen other = true → dt.seen other = true ∨ other = key) := by
  unfold checkAndMark
  cases there : dt.seen key with
  | true =>
    obtain ⟨entry, found, -⟩ := find_some there
    rw [found]
    exact ⟨seen_touch.mpr there, fun other kept => .inl (seen_touch.mp kept)⟩
  | false =>
    simp only [markLocked, find_none there]
    split
    · refine ⟨seen_pushFront.mpr (.inr rfl), fun other kept => ?_⟩
      exact (seen_pushFront.mp kept).imp_left seen_evictOldest
    · exact ⟨seen_pushFront.mpr (.inr rfl), fun other kept => seen_pushFront.mp kept⟩

end

end DedupTracker

end FlowRulZ.Dedup
