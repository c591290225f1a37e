import FlowRulZ.Lib.Lru
import FlowRulZ.Reliability.Dedup
import Mathlib.Data.List.Perm.Basic

/-! # The dedup tracker as a bounded set

The map and the list of `DedupTracker` are kept in step: they are two views of one list of
entries, the last one marked in front.  So the tracker is a bounded set of keys that drops the
least recently marked one.
-/

open List

namespace FlowRulZ.Dedup

namespace DedupTracker

def mark (dt : DedupTracker) (now : Nat) (key : String) : DedupTracker := dt.markLocked now key

def clear (dt : DedupTracker) : DedupTracker := { dt with entries := [], order := [] }

def expire (now : Nat) (dt : DedupTracker) (v : DedupEntry) : DedupTracker :=
  if dt.ttl < now - v.timestamp then
    { dt with
      order := dt.order.filter (·.1 ≠ v.elem)
      entries := dt.entries.filter (·.key ≠ v.key) }
  else dt

end DedupTracker

open DedupTracker

/-- The calls of the tracker, with the time on the clock. A cleanup pass iterates over the map in any order. -/
inductive Op where
  | mark (now : Nat) (key : String)
  | checkAndMark (now : Nat) (key : String)
  | clear
  | cleanup (now : Nat) (iteration : List DedupEntry → List DedupEntry)
      (whole : ∀ entries, (iteration entries).Perm entries)

/-- The tracker as a component; the outputs are the answers of `CheckAndMark`. -/
def tracker : Component DedupTracker Op Bool where
  handle dt
    | .mark now key => (dt.mark now key, [])
    | .checkAndMark now key => ((dt.checkAndMark now key).1, [(dt.checkAndMark now key).2])
    | .clear => (dt.clear, [])
    | .cleanup now iteration _ => ((iteration dt.entries).foldl (expire now) dt, [])

def Op.meaning (ttl : Nat) : Op → Lru.Op String Nat
  | .mark now key | .checkAndMark now key => .use key now
  | .clear => .clear
  | .cleanup now _ _ => .forget fun timestamp => ttl < now - timestamp

/-- The keys that are retained after some calls, the last one marked in front. -/
def retained (maxSize ttl : Nat) (ops : List Op) : List String :=
  Lru.keys ((Lru.set maxSize).after [] (ops.map (·.meaning ttl)))

def marks (ops : List Op) : List String :=
  ops.filterMap fun op => match op with
    | .mark _ key | .checkAndMark _ key => some key
    | .clear | .cleanup .. => none

structure Consistent (dt : DedupTracker) : Prop where
  keys : (dt.entries.map (·.key)).Perm (dt.order.map (·.2))
  nodup : (dt.order.map (·.2)).Nodup
  bounded : dt.entries.length ≤ dt.maxSize
  holds : ∀ entry ∈ dt.entries, dt.order.find? (·.1 = entry.elem) = some (entry.elem, entry.key)

/-- The map and the list, seen from one list of entries. -/
structure Views (dt : DedupTracker) (entries : List DedupEntry) : Prop where
  map : dt.entries.Perm entries
  order : dt.order = entries.map fun entry => (entry.elem, entry.key)
  keys : (entries.map (·.key)).Nodup
  elems : (entries.map (·.elem)).Nodup
  fresh : ∀ entry ∈ entries, entry.elem < dt.fresh

def stamps (entries : List DedupEntry) : List (String × Nat) := entries.map fun entry => (entry.key, entry.timestamp)

@[simp]
theorem keys_stamps (entries : List DedupEntry) : Lru.keys (stamps entries) = entries.map (·.key) := by
  simp [Lru.keys, stamps]

theorem stamps_filter (ttl now : Nat) (entries : List DedupEntry) :
    stamps (entries.filter fun entry => ¬ ttl < now - entry.timestamp) =
      (stamps entries).filter fun entry => !decide (ttl < now - entry.2) := by
  simp only [stamps, filter_map, decide_not]
  rfl

section

variable {dt : DedupTracker} {entries : List DedupEntry} {existing entry : DedupEntry} {now : Nat} {key : String}

section

variable (views : Views dt entries)
include views

theorem Views.key_inj (there : entry ∈ entries) (there' : existing ∈ entries) :
    entry.key = existing.key ↔ entry = existing := by
  constructor
  · exact fun same => inj_on_of_nodup_map views.keys there there' same
  · rintro rfl
    rfl

theorem Views.elem_inj (there : entry ∈ entries) (there' : existing ∈ entries) :
    entry.elem = existing.elem ↔ entry = existing := by
  constructor
  · exact fun same => inj_on_of_nodup_map views.elems there there' same
  · rintro rfl
    rfl

theorem Views.perm_cons (there : existing ∈ entries) :
    entries.Perm (existing :: entries.filter (·.key ≠ existing.key)) := by
  have others : entries.erase existing = entries.filter (·.key ≠ existing.key) := by
    rw [views.keys.of_map.erase_eq_filter]
    apply filter_congr
    intro entry listed
    by_cases same : entry = existing
    · simp [same]
    · simp [same, views.key_inj listed there]
  rw [← others]
  exact perm_cons_erase there

theorem Views.filter (keep : DedupEntry → Bool) (dt' : DedupTracker) (map : dt'.entries = dt.entries.filter keep)
    (order : dt'.order = (entries.filter keep).map fun entry => (entry.elem, entry.key))
    (fresh : dt'.fresh = dt.fresh) : Views dt' (entries.filter keep) where
  map := map ▸ views.map.filter keep
  order := order
  keys := views.keys.sublist (List.filter_sublist.map _)
  elems := views.elems.sublist (List.filter_sublist.map _)
  fresh := fun entry there => fresh ▸ views.fresh entry (mem_of_mem_filter there)

theorem Views.filter_order {keep : DedupEntry → Bool} {stay : Nat × String → Bool}
    (same : ∀ entry ∈ entries, stay (entry.elem, entry.key) = keep entry) :
    dt.order.filter stay = (entries.filter keep).map fun entry => (entry.elem, entry.key) := by
  rw [views.order, filter_map]
  congr 1
  exact filter_congr same

theorem views_cleanup (now : Nat) :
    Views (dt.cleanup now) (entries.filter fun entry => ¬ dt.ttl < now - entry.timestamp) := by
  apply views.filter _ (dt.cleanup now) rfl _ rfl
  apply views.filter_order
  intro entry there
  have old : (dt.entries.filter fun entry => dt.ttl < now - entry.timestamp).any (·.elem = entry.elem) = true ↔
      dt.ttl < now - entry.timestamp := by
    simp only [any_eq_true, mem_filter, decide_eq_true_eq]
    constructor
    · rintro ⟨other, ⟨listed, late⟩, same⟩
      rwa [← (views.elem_inj (views.map.mem_iff.mp listed) there).mp same]
    · intro late
      exact ⟨entry, ⟨views.map.mem_iff.mpr there, late⟩, rfl⟩
  rw [Bool.eq_iff_iff, Bool.not_eq_true', ← Bool.not_eq_true, old, decide_eq_true_eq]

theorem Views.find_elem (there : existing ∈ entries) :
    dt.order.find? (·.1 = existing.elem) = some (existing.elem, existing.key) := by
  have listed : (existing.elem, existing.key) ∈ dt.order := by
    rw [views.order]
    exact mem_map_of_mem there
  cases found : dt.order.find? (·.1 = existing.elem) with
  | none =>
    rw [find?_eq_none] at found
    exact absurd (decide_eq_true rfl) (found _ listed)
  | some node =>
    have member := mem_of_find?_eq_some found
    rw [views.order] at member
    obtain ⟨entry, there', rfl⟩ := mem_map.mp member
    have same : entry.elem = existing.elem := by simpa using find?_some found
    rw [(views.elem_inj there' there).mp same]

theorem views_touch (there : existing ∈ entries) (now : Nat) : Views (dt.touch now existing)
      ({ existing with timestamp := now } :: entries.filter (·.key ≠ existing.key)) := by
  have part : (entries.filter (·.key ≠ existing.key)).Sublist entries := filter_sublist
  have others : ∀ entry ∈ entries.filter (·.key ≠ existing.key), entry ∈ entries ∧ entry.key ≠ existing.key := by
    intro entry listed
    simpa using listed
  constructor
  · have split := (views.map.trans (views.perm_cons there)).map fun entry =>
      if entry.key = existing.key then { existing with timestamp := now } else entry
    have kept : (entries.filter (·.key ≠ existing.key)).map (fun entry =>
        if entry.key = existing.key then { existing with timestamp := now } else entry) =
          entries.filter (·.key ≠ existing.key) := by
      rw [map_congr_left fun entry listed => if_neg (others entry listed).2]
      exact map_id _
    rw [map_cons, if_pos rfl, kept] at split
    exact split
  · have rest : dt.order.filter (·.1 ≠ existing.elem) =
        (entries.filter (·.key ≠ existing.key)).map fun entry => (entry.elem, entry.key) := by
      apply views.filter_order
      intro entry listed
      simp [views.key_inj listed there, views.elem_inj listed there]
    simp only [touch, views.find_elem there, rest]
    rfl
  · exact nodup_cons.mpr ⟨by simp, views.keys.sublist (part.map _)⟩
  · refine nodup_cons.mpr ⟨fun used => ?_, views.elems.sublist (part.map _)⟩
    obtain ⟨entry, listed, same⟩ := mem_map.mp used
    obtain ⟨old, apart⟩ := others entry listed
    rw [(views.elem_inj old there).mp same] at apart
    exact apart rfl
  · intro entry listed
    rcases mem_cons.mp listed with rfl | old
    · exact views.fresh existing there
    · exact views.fresh entry (others entry old).1

theorem views_pushFront (new : key ∉ entries.map (·.key)) (now : Nat) :
    Views (dt.pushFront now key) (⟨key, now, dt.fresh⟩ :: entries) where
  map := (List.perm_append_singleton _ _).trans (views.map.cons _)
  order := by
    rw [map_cons, ← views.order]
    rfl
  keys := nodup_cons.mpr ⟨new, views.keys⟩
  elems := by
    refine nodup_cons.mpr ⟨fun used => ?_, views.elems⟩
    obtain ⟨entry, listed, same⟩ := mem_map.mp used
    exact absurd same (Nat.ne_of_lt (views.fresh entry listed))
  fresh := by
    intro entry listed
    rcases mem_cons.mp listed with rfl | old
    · exact Nat.lt_succ_self _
    · exact Nat.lt_succ_of_lt (views.fresh entry old)

end

theorem views_evictOldest {last : DedupEntry} (views : Views dt (entries ++ [last])) : Views dt.evictOldest entries := by
  have newer : (entries ++ [last]).filter (·.key ≠ last.key) = entries := by
    have distinct := views.keys
    rw [map_append, nodup_append] at distinct
    rw [filter_append, filter_eq_self.mpr]
    · simp
    · intro entry listed
      exact decide_eq_true (distinct.2.2 entry.key (mem_map_of_mem listed) last.key mem_cons_self)
  have evicted : dt.evictOldest = { dt with
      order := dt.order.dropLast
      entries := dt.entries.filter (·.key ≠ last.key) } := by
    simp [evictOldest, views.order]
  have order : dt.order.dropLast = entries.map fun entry => (entry.elem, entry.key) := by
    simp [views.order]
  have fewer := views.filter (fun entry => decide (entry.key ≠ last.key)) dt.evictOldest
  rw [newer] at fewer
  apply fewer <;> rw [evicted]
  exact order

theorem Views.find_none (views : Views dt entries) (new : key ∉ entries.map (·.key)) :
    dt.entries.find? (·.key = key) = none := by
  rw [find?_eq_none]
  intro entry listed same
  exact new (mem_map.mpr ⟨entry, views.map.mem_iff.mp listed, by simpa using same⟩)

theorem Views.find_some (views : Views dt entries) (there : key ∈ entries.map (·.key)) :
    ∃ existing ∈ entries, dt.entries.find? (·.key = key) = some existing ∧ existing.key = key := by
  cases found : dt.entries.find? (·.key = key) with
  | none =>
    obtain ⟨entry, listed, rfl⟩ := mem_map.mp there
    rw [find?_eq_none] at found
    exact absurd (decide_eq_true rfl) (found entry (views.map.mem_iff.mpr listed))
  | some existing =>
    have listed := views.map.mem_iff.mp (mem_of_find?_eq_some found)
    exact ⟨existing, listed, rfl, by simpa using find?_some found⟩

theorem views_mark (views : Views dt entries) (now : Nat) (key : String) :
    ∃ entries', Views (dt.markLocked now key) entries' ∧
      stamps entries' = Lru.use dt.maxSize key now (stamps entries) := by
  have size : dt.entries.length = (stamps entries).length := by
    rw [stamps, length_map, views.map.length_eq]
  by_cases there : key ∈ entries.map (·.key)
  · obtain ⟨existing, listed, found, rfl⟩ := views.find_some there
    refine ⟨{ existing with timestamp := now } :: entries.filter (·.key ≠ existing.key), ?_, ?_⟩
    · rw [markLocked, found]
      exact views_touch views listed now
    · simp only [Lru.use, keys_stamps, there]
      simp only [stamps, filter_map]
      rfl
  · by_cases full : dt.maxSize ≤ dt.entries.length
    · have positive := dt.maxSize_pos
      rcases eq_nil_or_concat' entries with rfl | ⟨newer, oldest, rfl⟩
      · rw [views.map.length_eq, length_nil] at full
        omega
      · have fewer := views_evictOldest views
        have new : key ∉ newer.map (·.key) := fun old => there (by simp [old])
        refine ⟨⟨key, now, dt.evictOldest.fresh⟩ :: newer, ?_, ?_⟩
        · rw [markLocked, views.find_none there]
          simp only [full]
          exact views_pushFront fewer new now
        · rw [size] at full
          simp only [Lru.use, keys_stamps, there, full]
          simp [stamps]
    · refine ⟨⟨key, now, dt.fresh⟩ :: entries, ?_, ?_⟩
      · rw [markLocked, views.find_none there]
        simp only [full]
        exact views_pushFront views there now
      · simp only [Lru.use, keys_stamps, there, ← size, full]
        rfl

theorem checkAndMark_eq (dt : DedupTracker) (now : Nat) (key : String) :
    (dt.checkAndMark now key).1 = dt.markLocked now key := by
  unfold checkAndMark markLocked
  split <;> rfl

theorem settings_markLocked (dt : DedupTracker) (now : Nat) (key : String) :
    (dt.markLocked now key).maxSize = dt.maxSize ∧ (dt.markLocked now key).ttl = dt.ttl := by
  unfold markLocked evictOldest
  split
  · exact ⟨rfl, rfl⟩
  · split
    · split <;> exact ⟨rfl, rfl⟩
    · exact ⟨rfl, rfl⟩

theorem foldl_expire (listed : List DedupEntry) : ∀ dt : DedupTracker, listed.foldl (expire now) dt =
    { dt with
      order := dt.order.filter fun node => ∀ v ∈ listed, dt.ttl < now - v.timestamp → node.1 ≠ v.elem
      entries := dt.entries.filter fun entry => ∀ v ∈ listed, dt.ttl < now - v.timestamp → entry.key ≠ v.key } := by
  induction listed with
  | nil =>
    intro dt
    simp
  | cons v listed ih =>
    intro dt
    rw [foldl_cons, ih]
    by_cases late : dt.ttl < now - v.timestamp
    · simp [expire, late, filter_filter, Bool.and_comm]
    · simp [expire, late]

/-- The order of the iteration does not matter. -/
theorem foldl_expire_eq_cleanup (views : Views dt entries) {listed : List DedupEntry} (whole : listed.Perm dt.entries)
    (now : Nat) : listed.foldl (expire now) dt = dt.cleanup now := by
  have stay (node : Nat × String) : decide (∀ v ∈ listed, dt.ttl < now - v.timestamp → node.1 ≠ v.elem) =
      !(dt.entries.filter fun entry => dt.ttl < now - entry.timestamp).any (·.elem = node.1) := by
    rw [Bool.eq_iff_iff, Bool.not_eq_true', any_eq_false]
    simp only [mem_filter, decide_eq_true_eq, ← whole.mem_iff]
    constructor
    · rintro apart v ⟨there, late⟩ same
      exact apart v there late same.symm
    · intro apart v there late same
      exact apart v ⟨there, late⟩ same.symm
  have keep : dt.entries.filter (fun entry => ∀ v ∈ listed, dt.ttl < now - v.timestamp → entry.key ≠ v.key) =
      dt.entries.filter fun entry => ¬ dt.ttl < now - entry.timestamp := by
    apply filter_congr
    intro entry there
    rw [decide_eq_decide]
    constructor
    · intro apart late
      exact apart entry (whole.mem_iff.mpr there) late rfl
    · intro early v listed_ late same
      have own := (views.key_inj (views.map.mem_iff.mp there) (views.map.mem_iff.mp (whole.mem_iff.mp listed_))).mp same
      exact early (own ▸ late)
  rw [foldl_expire, keep]
  simp only [stay]
  rfl

end

structure StandsFor (maxSize ttl : Nat) (dt : DedupTracker) (kept : List (String × Nat)) : Prop where
  views : ∃ entries, Views dt entries ∧ stamps entries = kept
  maxSize_eq : dt.maxSize = maxSize
  ttl_eq : dt.ttl = ttl

section

variable {maxSize ttl : Nat} {dt : DedupTracker} {kept : List (String × Nat)}

theorem StandsFor.markLocked (stands : StandsFor maxSize ttl dt kept) (now : Nat) (key : String) :
    StandsFor maxSize ttl (dt.markLocked now key) (Lru.use maxSize key now kept) := by
  obtain ⟨⟨entries, views, rfl⟩, rfl, rfl⟩ := stands
  obtain ⟨sameSize, sameTtl⟩ := settings_markLocked dt now key
  exact ⟨views_mark views now key, sameSize, sameTtl⟩

theorem StandsFor.handle (stands : StandsFor maxSize ttl dt kept) (op : Op) :
    StandsFor maxSize ttl (tracker.handle dt op).1 ((Lru.set maxSize).handle kept (op.meaning ttl)).1 := by
  cases op with
  | mark now key => exact stands.markLocked now key
  | checkAndMark now key =>
    have marked := stands.markLocked now key
    rw [← checkAndMark_eq] at marked
    exact marked
  | clear => exact ⟨⟨[], ⟨.refl _, rfl, .nil, .nil, nofun⟩, rfl⟩, stands.maxSize_eq, stands.ttl_eq⟩
  | cleanup now iteration whole =>
    obtain ⟨⟨entries, views, rfl⟩, rfl, rfl⟩ := stands
    have swept : (tracker.handle dt (.cleanup now iteration whole)).1 = dt.cleanup now :=
      foldl_expire_eq_cleanup views (whole dt.entries) now
    rw [swept]
    exact ⟨⟨_, views_cleanup views now, stamps_filter dt.ttl now entries⟩, rfl, rfl⟩

theorem standsFor_after (maxSize ttl : Int) (ops : List Op) :
    let fresh := newDedupTracker maxSize ttl
    StandsFor fresh.maxSize fresh.ttl (tracker.after fresh ops)
      ((Lru.set fresh.maxSize).after [] (ops.map (·.meaning fresh.ttl))) := by
  intro fresh
  induction ops using List.reverseRecOn with
  | nil =>
    refine ⟨⟨[], ?_, rfl⟩, rfl, rfl⟩
    simp only [fresh, newDedupTracker]
    split <;> exact ⟨List.Perm.refl _, rfl, nodup_nil, nodup_nil, by simp⟩
  | append_singleton ops op ih =>
    rw [map_append, map_singleton, Component.after_concat, Component.after_concat]
    exact ih.handle op

section

variable (stands : StandsFor maxSize ttl dt kept)
include stands

theorem StandsFor.order : dt.order.map (·.2) = Lru.keys kept := by
  obtain ⟨⟨entries, views, rfl⟩, -, -⟩ := stands
  rw [views.order, map_map, keys_stamps]
  rfl

theorem StandsFor.consistent (room : kept.length ≤ maxSize) : Consistent dt := by
  have order := stands.order
  obtain ⟨⟨entries, views, rfl⟩, rfl, rfl⟩ := stands
  rw [keys_stamps] at order
  rw [stamps, length_map, ← views.map.length_eq] at room
  refine ⟨?_, ?_, room, ?_⟩
  · rw [order]
    exact views.map.map _
  · rw [order]
    exact views.keys
  · intro entry there
    exact views.find_elem (views.map.mem_iff.mp there)

theorem StandsFor.checkAndMark (now : Nat) (key : String) :
    (dt.checkAndMark now key).2 = false ↔ key ∉ Lru.keys kept := by
  obtain ⟨⟨entries, views, rfl⟩, -, -⟩ := stands
  by_cases there : key ∈ entries.map (·.key)
  · obtain ⟨existing, -, found, -⟩ := views.find_some there
    simp [DedupTracker.checkAndMark, found, there]
  · simp [DedupTracker.checkAndMark, views.find_none there, there]

end

end

theorem uses_meaning (ttl : Nat) (ops : List Op) : Lru.uses (ops.map (·.meaning ttl)) = marks ops := by
  rw [Lru.uses, filterMap_map]
  apply filterMap_congr
  intro op _
  cases op <;> rfl

/-- The tracker is a bounded set of keys. When it is full, a new key takes the place of the one that was not marked for
longest. -/
theorem tracker_lru (maxSize ttl : Int) (ops : List Op) :
    let fresh := newDedupTracker maxSize ttl
    let dt := tracker.after fresh ops
    let kept := retained fresh.maxSize fresh.ttl ops
    Consistent dt ∧ dt.order.map (·.2) = kept ∧ (∀ now key, dt.entries.length = dt.maxSize → key ∉ kept →
        ∃ newer oldest, kept = newer ++ [oldest] ∧ (dt.mark now key).order.map (·.2) = key :: newer ∧
          ((dt.checkAndMark now key).1.order.map (·.2) = key :: newer) ∧
          ∀ other ∈ newer, Lru.UsedAfter (marks ops) other oldest) ∧
      ∀ now key, (dt.checkAndMark now key).2 = false ↔ key ∉ kept := by
  intro fresh dt kept
  have stands := standsFor_after maxSize ttl ops
  have ordered := Lru.ordered_after fresh.maxSize_pos (ops.map (·.meaning fresh.ttl))
  rw [uses_meaning] at ordered
  refine ⟨stands.consistent ordered.room, stands.order, ?_, stands.checkAndMark⟩
  intro now key full new
  have size : dt.entries.length = ((Lru.set fresh.maxSize).after [] (ops.map (·.meaning fresh.ttl))).length := by
    obtain ⟨entries, views, same⟩ := stands.views
    rw [← same, stamps, length_map, ← views.map.length_eq]
  rw [size, stands.maxSize_eq] at full
  obtain ⟨newer, oldest, split, used⟩ := Lru.use_full full.ge fresh.maxSize_pos new now
  have marked := (stands.markLocked now key).order.trans used
  refine ⟨newer, oldest, split, marked, ?_, ordered.last split⟩
  rw [checkAndMark_eq]
  exact marked

end FlowRulZ.Dedup
