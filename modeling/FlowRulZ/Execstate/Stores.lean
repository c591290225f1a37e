import FlowRulZ.Lib.Component
import FlowRulZ.Node.ExecutePlan
import FlowRulZ.Lib.Table

/-! # State stores

`FileStore` keeps each state in a file and, beside the files, an index of the ids by status.
Status 0 is `created` and also stands for an id that the index does not have; so the index
loses track of states that leave `created`, and of states that `Save` writes as `created`.
`MemoryStore` looks at the states themselves.  File operations succeed, and a state that is
written is read back as it was.
-/

namespace FlowRulZ.Execstate

open List

open Node (Status ExecState)

/-- `execstate.State`; times are in nanoseconds. -/
structure State extends ExecState where
  id : String
  ruleID : String := ""
  version : UInt64 := 0
  planBytes : Bytes := []
  createdAt : Int := 0
  updatedAt : Int := 0
  deriving Repr, DecidableEq

abbrev Files := AList (fun _ : String => State)

def allStatuses : List Status := [.created, .running, .waitingForService, .completed, .failed]

/-- The order in which a loop over the index meets the statuses. -/
structure MapOrder where
  order : List Status
  complete : ∀ status, status ∈ order

inductive Op where
  | create (s : State)
  /-- With the time, and the order of the loop in `getStatusFromIndex`. -/
  | save (map : MapOrder) (now : Int) (s : State)
  | delete (id : String)

def sortByCreation (states : List State) : List State :=
  states.mergeSort fun s s' => decide (s.createdAt ≤ s'.createdAt)

/-! ## The file store -/

structure FileStore where
  files : Files
  statusIndex : Status → List String

namespace FileStore

def addToIndex (index : Status → List String) (id : String) (status : Status) : Status → List String :=
  fun s => if s = status then (index s).insert id else index s

def removeFromIndex (index : Status → List String) (id : String) : Status → List String :=
  fun s => (index s).filter (· ≠ id)

/-- The first status whose ids have this one, or 0. -/
def getStatusFromIndex (map : MapOrder) (index : Status → List String) (id : String) : Status :=
  (map.order.find? fun s => id ∈ index s).getD .created

def updateIndex (index : Status → List String) (id : String) (oldStatus newStatus : Status) : Status → List String :=
  if oldStatus = newStatus then index
  else
    -- status 0 is not removed
    let kept := if oldStatus = .created then index
      else fun s => if s = oldStatus then (index s).filter (· ≠ id) else index s
    addToIndex kept id newStatus

def buildIndex (files : Files) : Status → List String :=
  files.entries.foldl (fun index entry => addToIndex index entry.1 entry.2.status) fun _ => []

/-- `NewFileStore` in a directory. -/
def new (files : Files) : FileStore := ⟨files, buildIndex files⟩

def reopen (fs : FileStore) : FileStore := new fs.files

/-- `Create`, `Save` and `Delete`, with the error if there is one. -/
def perform (fs : FileStore) : Op → FileStore × Option String
  | .create s =>
    match fs.files.lookup s.id with
    | some _ => (fs, some s!"execstate: {s.id} already exists")
    | none => (⟨fs.files.insert s.id s, addToIndex fs.statusIndex s.id s.status⟩, none)
  | .save map now s =>
    let oldStatus := getStatusFromIndex map fs.statusIndex s.id
    (⟨fs.files.insert s.id { s with updatedAt := now }, updateIndex fs.statusIndex s.id oldStatus s.status⟩, none)
  | .delete id => (⟨fs.files.erase id, removeFromIndex fs.statusIndex id⟩, none)

def candidates (fs : FileStore) (statuses : List Status) : List String :=
  if statuses.length = 0 then allStatuses.flatMap fs.statusIndex else statuses.flatMap fs.statusIndex

/-- `ListByStatus`. A file that cannot be read is skipped. -/
def listByStatus (fs : FileStore) (statuses : List Status) : List State :=
  sortByCreation ((fs.candidates statuses).filterMap fs.files.lookup)

def component : Component FileStore Op (Option String) where
  handle fs op := ((fs.perform op).1, [(fs.perform op).2])

end FileStore

/-! ## The memory store -/

/-- The entries are taken as values: a state is not changed behind the store. -/
structure MemoryStore where
  entries : Files

namespace MemoryStore

def perform (ms : MemoryStore) : Op → MemoryStore × Option String
  | .create s =>
    match ms.entries.lookup s.id with
    | some _ => (ms, some s!"execstate: {s.id} already exists")
    | none => (⟨ms.entries.insert s.id s⟩, none)
  | .save _ now s => (⟨ms.entries.insert s.id { s with updatedAt := now }⟩, none)
  | .delete id =>
    match ms.entries.lookup id with
    | some _ => (⟨ms.entries.erase id⟩, none)
    | none => (ms, some s!"execstate: {id} not found")

def listByStatus (ms : MemoryStore) (statuses : List Status) : List State :=
  sortByCreation ((ms.entries.entries.map (·.2)).filter fun s =>
    decide (statuses.length = 0) || decide (s.status ∈ statuses))

def component : Component MemoryStore Op (Option String) where
  handle ms op := ((ms.perform op).1, [(ms.perform op).2])

end MemoryStore

/-! ## One copy of each -/

/-- The answer has each stored state of these statuses once, and nothing else. -/
def OneCopy (files : Files) (statuses : List Status) (answer : List State) : Prop :=
  ∀ s, answer.count s =
    if files.lookup s.id = some s ∧ (statuses = [] ∨ s.status ∈ statuses) then 1 else 0

def Named (files : Files) : Prop := ∀ id s, files.lookup id = some s → s.id = id

/-- The state that is written does not leave `created`, and a state that is new is not `created`. -/
def Tracked (fs : FileStore) : Op → Prop
  | .save _ _ s => match fs.files.lookup s.id with
    | some old => old.status = .created → s.status = .created
    | none => s.status ≠ .created
  | _ => True

theorem count_sortByCreation (states : List State) (s : State) : (sortByCreation states).count s = states.count s :=
  (mergeSort_perm states _).count_eq s

variable {statuses : List Status}

theorem OneCopy.mem {files : Files} {answer : List State} (oneCopy : OneCopy files statuses answer) (s : State) :
    s ∈ answer ↔ files.lookup s.id = some s ∧ (statuses = [] ∨ s.status ∈ statuses) := by
  rw [← count_pos_iff, oneCopy s]
  split_ifs with fits
  · simp [fits]
  · simp only [fits, lt_irrefl]

theorem oneCopy_sorted {files : Files} {states : List State} (nodup : states.Nodup)
    (listed : ∀ s, s ∈ states ↔ files.lookup s.id = some s ∧ (statuses = [] ∨ s.status ∈ statuses)) :
    OneCopy files statuses (sortByCreation states) := by
  intro s
  rw [count_sortByCreation, List.Nodup.count nodup]
  simp only [listed]

open FileStore

theorem mem_listByStatus {fs : FileStore} {s : State} :
    s ∈ fs.listByStatus statuses ↔ ∃ id ∈ fs.candidates statuses, fs.files.lookup id = some s := by
  rw [listByStatus, sortByCreation, mem_mergeSort, mem_filterMap]

structure Exact (files : Files) (index : Status → List String) : Prop where
  nodup : ∀ status, (index status).Nodup
  listed : ∀ status id, id ∈ index status ↔ ∃ s, files.lookup id = some s ∧ s.status = status

section

variable {files : Files} {index : Status → List String} {fs : FileStore}

theorem Exact.oneCopy (exact : Exact fs.files fs.statusIndex) (named : Named fs.files) {statuses : List Status}
    (distinct : statuses.Nodup) : OneCopy fs.files statuses (fs.listByStatus statuses) := by
  -- the ids of two statuses are apart, since a state has one status
  have apart (list : List Status) (distinct : list.Nodup) : (list.flatMap fs.statusIndex).Nodup := by
    rw [nodup_flatMap]
    refine ⟨fun status _ => exact.nodup status, distinct.imp ?_⟩
    intro status status' other id here there
    obtain ⟨s, known, rfl⟩ := (exact.listed status id).mp here
    obtain ⟨s', known', rfl⟩ := (exact.listed status' id).mp there
    rw [known] at known'
    cases known'
    exact other rfl
  have all (status : Status) : status ∈ allStatuses := by cases status <;> decide
  have wanted (id : String) : id ∈ fs.candidates statuses ↔
      ∃ s, fs.files.lookup id = some s ∧ (statuses = [] ∨ s.status ∈ statuses) := by
    unfold candidates
    split_ifs with none
    · simp [exact.listed, all, length_eq_zero_iff.mp none]
    · simp only [mem_flatMap, exact.listed]
      grind
  apply oneCopy_sorted
  · apply List.Nodup.filterMap
    · intro id id' s found found'
      exact (named id s found).symm.trans (named id' s found')
    · unfold candidates
      split_ifs
      · exact apart _ (by decide)
      · exact apart _ distinct
  · intro s
    simp only [mem_filterMap, wanted]
    constructor
    · rintro ⟨id, ⟨s', known, fits⟩, found⟩
      rw [found] at known
      cases known
      rw [named id s found]
      exact ⟨found, fits⟩
    · rintro ⟨found, fits⟩
      exact ⟨s.id, ⟨s, found, fits⟩, found⟩

variable {id : String} {st old : State} {map : MapOrder}

theorem mem_addToIndex {status s : Status} {id' : String} :
    id' ∈ addToIndex index id status s ↔ id' ∈ index s ∨ id' = id ∧ s = status := by
  unfold addToIndex
  split_ifs with here
  · simp [here, or_comm]
  · simp [here]

theorem nodup_addToIndex (nodup : ∀ s, (index s).Nodup) (status s : Status) : (addToIndex index id status s).Nodup := by
  unfold addToIndex
  split_ifs
  · exact (nodup s).insert
  · exact nodup s

section

variable (exact : Exact files index)
include exact

theorem Exact.insert {index' : Status → List String}
    (nodup : ∀ s, (index' s).Nodup) (others : ∀ s id', id' ≠ id → (id' ∈ index' s ↔ id' ∈ index s))
    (own : ∀ s, id ∈ index' s ↔ s = st.status) : Exact (files.insert id st) index' where
  nodup := nodup
  listed s id' := by
    by_cases here : id' = id
    · subst here
      simp [own, AList.lookup_insert, eq_comm]
    · rw [others s id' here, exact.listed, AList.lookup_insert_ne here]

theorem Exact.unknown (unknown : files.lookup id = none) (status : Status) : id ∉ index status := by
  rw [exact.listed, unknown]
  simp

theorem Exact.known (known : files.lookup id = some old) (status : Status) :
    id ∈ index status ↔ status = old.status := by
  rw [exact.listed, known]
  simp [eq_comm]

theorem Exact.status (known : files.lookup id = some old) : getStatusFromIndex map index id = old.status := by
  unfold getStatusFromIndex
  cases found : map.order.find? fun s => id ∈ index s with
  | none =>
    have missing := find?_eq_none.mp found old.status (map.complete _)
    simp [exact.known known] at missing
  | some status =>
    have there := find?_some found
    rw [decide_eq_true_iff, exact.known known] at there
    exact there

theorem Exact.noStatus (unknown : files.lookup id = none) : getStatusFromIndex map index id = .created := by
  have nowhere : map.order.find? (fun s => id ∈ index s) = none := by
    apply find?_eq_none.mpr
    intro status _
    simp [exact.unknown unknown]
  rw [getStatusFromIndex, nowhere]
  rfl

theorem Exact.create (st : State) (unknown : files.lookup id = none) :
    Exact (files.insert id st) (addToIndex index id st.status) := by
  apply exact.insert (nodup_addToIndex exact.nodup _)
  · intro s id' other
    simp [mem_addToIndex, other]
  · intro s
    simp [mem_addToIndex, exact.unknown unknown]

theorem Exact.move (st : State) (known : files.lookup id = some old) (started : old.status ≠ .created) :
    Exact (files.insert id st) (updateIndex index id old.status st.status) := by
  unfold updateIndex
  split_ifs with same
  · apply exact.insert exact.nodup (fun _ _ _ => Iff.rfl)
    intro s
    rw [exact.known known, same]
  · apply exact.insert
    · apply nodup_addToIndex
      intro s
      split_ifs
      · exact (exact.nodup s).filter _
      · exact exact.nodup s
    · intro s id' other
      rw [mem_addToIndex]
      split_ifs <;> simp [other]
    · intro s
      rw [mem_addToIndex]
      split_ifs with here
      · simp [here]
      · simp [exact.known known, here]

theorem Exact.delete : Exact (files.erase id) (removeFromIndex index id) where
  nodup s := (exact.nodup s).filter _
  listed s id' := by
    by_cases here : id' = id
    · subst here
      simp [removeFromIndex]
    · rw [AList.lookup_erase_ne here, ← exact.listed]
      simp [removeFromIndex, here]

end

theorem named_insert (named : Named files) (own : st.id = id) : Named (files.insert id st) := by
  intro id' s known
  rcases Table.of_insert known with ⟨rfl, rfl⟩ | ⟨-, old⟩
  · exact own
  · exact named id' s old

theorem named_perform (named : Named fs.files) (op : Op) : Named (fs.perform op).1.files := by
  cases op with
  | create s =>
    simp only [perform]
    split
    · exact named
    · exact named_insert named rfl
  | save map now s => exact named_insert named rfl
  | delete id => exact fun id' s known => named id' s (Table.of_erase known).2

/-! ## Along a history -/

section

variable (exact : Exact fs.files fs.statusIndex)
include exact

theorem exact_perform {op : Op} (tracked : Tracked fs op) :
    Exact (fs.perform op).1.files (fs.perform op).1.statusIndex := by
  cases op with
  | create s =>
    simp only [perform]
    cases known : fs.files.lookup s.id with
    | some old => exact exact
    | none => exact exact.create s known
  | save map now s =>
    simp only [perform]
    cases known : fs.files.lookup s.id with
    | some old =>
      rw [Tracked, known] at tracked
      rw [exact.status known]
      by_cases new : old.status = .created
      · -- it stays `created`, and the index stays as it is
        rw [updateIndex, if_pos (new.trans (tracked new).symm)]
        apply exact.insert exact.nodup (fun _ _ _ => Iff.rfl)
        intro status
        rw [exact.known known, new, ← tracked new]
      · exact exact.move { s with updatedAt := now } known new
    | none =>
      rw [Tracked, known] at tracked
      rw [exact.noStatus known, updateIndex, if_neg (Ne.symm tracked)]
      exact exact.create { s with updatedAt := now } known
  | delete id => exact exact.delete

theorem tracked_of_answers (named : Named fs.files) {op : Op} (answers : ∀ statuses : List Status, statuses.Nodup →
      OneCopy (fs.perform op).1.files statuses ((fs.perform op).1.listByStatus statuses)) : Tracked fs op := by
  cases op with
  | create s => trivial
  | delete id => trivial
  | save map now s =>
    have lookup : (fs.perform (.save map now s)).1.files.lookup s.id = some { s with updatedAt := now } :=
      AList.lookup_insert _
    cases known : fs.files.lookup s.id with
    | some old =>
      simp only [Tracked, known]
      intro new
      by_contra left
      have stale : s.id ∈ (fs.perform (.save map now s)).1.statusIndex .created := by
        simp only [perform, exact.status known, new, updateIndex, if_neg (Ne.symm left), if_true]
        exact mem_addToIndex.mpr (.inl ((exact.known known _).mpr new.symm))
      have listed : { s with updatedAt := now } ∈ (fs.perform (.save map now s)).1.listByStatus [.created] :=
        mem_listByStatus.mpr ⟨s.id, by simpa [candidates] using stale, lookup⟩
      obtain ⟨-, fits⟩ := ((answers [.created] (by decide)).mem _).mp listed
      simp [left] at fits
    | none =>
      simp only [Tracked, known]
      intro new
      have listed := ((answers [] nodup_nil).mem { s with updatedAt := now }).mpr ⟨lookup, .inl rfl⟩
      obtain ⟨id, wanted, found⟩ := mem_listByStatus.mp listed
      have same := named_perform named (.save map now s) id _ found
      subst same
      have index : (fs.perform (.save map now s)).1.statusIndex = fs.statusIndex := by
        simp only [perform, exact.noStatus known, new, updateIndex, if_true]
      rw [candidates, length_nil, index] at wanted
      obtain ⟨status, -, there⟩ := mem_flatMap.mp wanted
      exact exact.unknown known status there

/-- The answers stay right as long as the index keeps track. -/
theorem always_answers (named : Named fs.files) (ops : List Op) : component.Always
        (fun fs => ∀ statuses : List Status, statuses.Nodup → OneCopy fs.files statuses (fs.listByStatus statuses))
        fs ops ↔
      component.Throughout Tracked fs ops := by
  apply component.always_iff_throughout_of_step (I := fun fs => Exact fs.files fs.statusIndex ∧ Named fs.files)
  · rintro fs ⟨exact, named⟩ statuses distinct
    exact exact.oneCopy named distinct
  · rintro fs op ⟨exact, named⟩
    exact ⟨tracked_of_answers exact named, fun tracked => ⟨exact_perform exact tracked, named_perform named op⟩⟩
  · exact ⟨exact, named⟩

end

theorem mem_foldl_addToIndex (entries : List (Sigma fun _ : String => State)) {status : Status} :
    ∀ index : Status → List String,
      id ∈ (entries.foldl (fun index entry => addToIndex index entry.1 entry.2.status) index) status ↔
        id ∈ index status ∨ ∃ s, ⟨id, s⟩ ∈ entries ∧ s.status = status := by
  induction entries with
  | nil => simp
  | cons entry entries ih =>
    intro index
    have first : (∃ s, ⟨id, s⟩ = entry ∧ s.status = status) ↔ id = entry.1 ∧ status = entry.2.status := by
      cases entry
      simp [eq_comm]
    simp only [foldl_cons, ih, mem_addToIndex, mem_cons, or_and_right, exists_or, first, or_assoc]

theorem nodup_foldl_addToIndex (entries : List (Sigma fun _ : String => State)) :
    ∀ index : Status → List String, (∀ s, (index s).Nodup) → ∀ s,
      ((entries.foldl (fun index entry => addToIndex index entry.1 entry.2.status) index) s).Nodup := by
  induction entries with
  | nil => exact fun index nodup => nodup
  | cons entry entries ih => exact fun index nodup => ih _ (nodup_addToIndex nodup _)

theorem exact_new (files : Files) : Exact files (buildIndex files) where
  nodup := nodup_foldl_addToIndex files.entries _ fun _ => List.nodup_nil
  listed status id := by
    rw [buildIndex, mem_foldl_addToIndex]
    simp [← AList.mem_lookup_iff]

/-! ## The memory store -/

theorem MemoryStore.oneCopy {ms : MemoryStore} (named : Named ms.entries) (statuses : List Status) :
    OneCopy ms.entries statuses (ms.listByStatus statuses) := by
  have own (entry : Sigma fun _ : String => State) (there : entry ∈ ms.entries.entries) : entry.2.id = entry.1 :=
    named entry.1 entry.2 (AList.mem_lookup_iff.mpr there)
  apply oneCopy_sorted
  · apply List.Nodup.filter
    apply List.Nodup.of_map (·.id)
    have keys : ms.entries.entries.map ((·.id) ∘ (·.2)) = ms.entries.keys := map_congr_left own
    rw [map_map, keys]
    exact ms.entries.keys_nodup
  · intro s
    have stored : s ∈ ms.entries.entries.map (·.2) ↔ ms.entries.lookup s.id = some s := by
      rw [← Option.mem_def, AList.mem_lookup_iff, mem_map]
      constructor
      · rintro ⟨entry, there, rfl⟩
        rw [own entry there]
        exact there
      · exact fun there => ⟨_, there, rfl⟩
    simp [mem_filter, stored, length_eq_zero_iff]

theorem entries_after (fs : FileStore) (ops : List Op) :
    (MemoryStore.component.after ⟨fs.files⟩ ops).entries = (component.after fs ops).files := by
  induction ops generalizing fs with
  | nil => rfl
  | cons op ops ih =>
    have same : (MemoryStore.perform ⟨fs.files⟩ op).1 = ⟨(fs.perform op).1.files⟩ := by
      cases op with
      | create s =>
        simp only [MemoryStore.perform, perform]
        cases fs.files.lookup s.id <;> rfl
      | save map now s => rfl
      | delete id =>
        simp only [MemoryStore.perform]
        cases known : fs.files.lookup id with
        | some s => rfl
        | none =>
          have absent : id ∉ fs.files.keys := by
            rwa [← AList.mem_keys, ← AList.lookup_eq_none]
          exact congrArg MemoryStore.mk (AList.ext (kerase_of_notMem_keys absent).symm)
    calc (MemoryStore.component.after ⟨fs.files⟩ (op :: ops)).entries
        = (MemoryStore.component.after (MemoryStore.perform ⟨fs.files⟩ op).1 ops).entries := rfl
      _ = (MemoryStore.component.after ⟨(fs.perform op).1.files⟩ ops).entries := by rw [same]
      _ = (component.after (fs.perform op).1 ops).files := ih _

end

/-- The answers of a file store are right as long as no state leaves `created` and no new state is saved as `created`,
and only so long. A store that is reopened, and a memory store, always answer right. -/
theorem answers_by_current_status (files : Files) (named : Named files) (ops : List Op) :
    (FileStore.component.Always (fun fs => ∀ statuses : List Status, statuses.Nodup →
            OneCopy fs.files statuses (fs.listByStatus statuses)) (FileStore.new files) ops ↔
        FileStore.component.Throughout Tracked (FileStore.new files) ops) ∧
      ∀ statuses : List Status, statuses.Nodup →
        OneCopy (FileStore.component.after (FileStore.new files) ops).files statuses
            ((FileStore.component.after (FileStore.new files) ops).reopen.listByStatus statuses) ∧
          OneCopy (FileStore.component.after (FileStore.new files) ops).files statuses
            ((MemoryStore.component.after ⟨files⟩ ops).listByStatus statuses) := by
  refine ⟨always_answers (exact_new files) named ops, ?_⟩
  have named' : Named (component.after (new files) ops).files :=
    Component.after_of_invariant (P := fun fs : FileStore => Named fs.files) named fun _ named => named_perform named _
  have reopened := exact_new (component.after (new files) ops).files
  intro statuses distinct
  constructor
  · exact Exact.oneCopy (show Exact (reopen _).files (reopen _).statusIndex from reopened) named' distinct
  · have same := entries_after (new files) ops
    rw [← same] at named' ⊢
    exact MemoryStore.oneCopy named' statuses

def inOrder : MapOrder := ⟨allStatuses, by intro status; cases status <;> decide⟩

/-- A state that is created as running is listed by its status. -/
theorem answers_for_running : FileStore.component.Always (fun fs => ∀ statuses : List Status, statuses.Nodup →
        OneCopy fs.files statuses (fs.listByStatus statuses)) (FileStore.new ∅)
      [.create { id := "a", status := .running }, .save inOrder 1 { id := "a", status := .completed },
        .delete "a"] := by
  apply (answers_by_current_status ∅ _ _).1.mpr
  · exact ⟨trivial, nofun, trivial, trivial⟩
  · intro id s known
    cases known

/-- A state that leaves `created` is listed twice, and a new state that is saved as `created` is not
listed. -/
theorem created_loses_track : ((FileStore.component.after (FileStore.new ∅)
          [.create { id := "a" }, .save inOrder 1 { id := "a", status := .running }]).listByStatus []).count
        { id := "a", status := .running, updatedAt := 1 } = 2 ∧
      ((FileStore.component.after (FileStore.new ∅) [.save inOrder 1 { id := "a" }]).listByStatus []).count
        { id := "a", updatedAt := 1 } = 0 := by
  constructor
  · rw [listByStatus, count_sortByCreation]
    decide
  · rw [listByStatus, count_sortByCreation]
    decide

end FlowRulZ.Execstate
