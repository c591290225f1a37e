import FlowRulZ.Reliability.DeadLetters

/-! # Dead letters in memory and on disk

Files are kept by id, while the queue is a list in which an id may stand twice.  A new process
builds the queue from all files of the directory, whatever its size.
-/

open List

namespace FlowRulZ.DeadLetters

namespace DLQ

/-- `loadFromDir`; a directory is listed by the names of the files. -/
def loadFromDir (d : DLQ) : DLQ :=
  { d with entries := d.entries ++ d.files.mergeSort fun a b => decide (a.id ++ ".json" ≤ b.id ++ ".json") }

def restart (d : DLQ) (maxSize : Int) : DLQ :=
  let fresh := { newDLQ maxSize d.producer d.dir with files := d.files }
  if d.dir = "" then fresh else fresh.loadFromDir

end DLQ

inductive Step where
  | call (op : Op)
  | restart (maxSize : Int)

def processes (unmarshal : Bytes → Option DeadLetterEntry) : Component DLQ Step Event where
  handle d
    | .call op => (queue unmarshal).handle d op
    | .restart maxSize => (d.restart maxSize, [])

def fileIDs (d : DLQ) : List String := d.files.map (·.id)

/-- The files are those of the ids in the queue, and the queue is not too long. -/
structure Agrees (d : DLQ) : Prop where
  files : ∀ id, id ∈ fileIDs d ↔ id ∈ ids d
  bounded : d.entries.length ≤ d.maxSize

/-- Entries that are sent one after the other, each with an id that is neither in the queue nor
that of an entry which waits to be replayed. -/
def Apart (waiting : List String) : DLQ → List DeadLetterEntry → Prop
  | _, [] => True
  | d, entry :: rest =>
    (safeID entry.id = true → entry.id ∉ ids d ++ waiting) ∧ Apart waiting (d.sendNew entry).1 rest

/-- The entries that the replay function sends in the loop of `ReplayAll`. -/
def ApartLoop (fn : DeadLetterEntry → Replayed) : DLQ → List DeadLetterEntry → Prop
  | _, [] => True
  | d, entry :: rest =>
    Apart ((entry :: rest).map (·.id)) d (fn (DLQ.retried entry)).sends ∧ ApartLoop fn (DLQ.attempt fn d entry).1 rest

def Fresh (d : DLQ) : Step → Prop
  | .call (.send entry) => Apart [] d [entry]
  | .call (.replay id) => ∀ entry fn, d.entries.find? (·.id = id) = some entry → d.replayFn = some fn →
      Apart [] (d.takeOut id) (fn (DLQ.retried entry)).sends
  | .call .replayAll => ∀ fn, d.replayFn = some fn → ApartLoop fn d.emptied d.entries
  | _ => True

/-- `ReplayAll` finds a replay function or an empty queue, and a new process has room for all
entries. -/
def Roomy (d : DLQ) : Step → Prop
  | .call .replayAll => d.entries ≠ [] → d.replayFn ≠ none
  | .restart maxSize => d.entries.length ≤ (newDLQ maxSize d.producer d.dir).maxSize
  | _ => True

/-- The files are those of the ids in the queue and of the entries that wait to be replayed, and
no id is there twice. -/
structure Tidy (waiting : List String) (d : DLQ) : Prop where
  dir : d.dir ≠ ""
  files : ∀ id, id ∈ fileIDs d ↔ id ∈ ids d ++ waiting
  single : (fileIDs d).Nodup
  nodup : (ids d ++ waiting).Nodup
  bounded : d.entries.length ≤ d.maxSize

section

variable {d : DLQ} {waiting : List String} {entry : DeadLetterEntry}

theorem fileIDs_removePersisted (dir : d.dir ≠ "") (id : String) :
    fileIDs (d.removePersisted id) = (fileIDs d).filter (· ≠ id) := by
  simp [fileIDs, DLQ.removePersisted, dir, filter_map, Function.comp_def]

@[simp]
theorem dir_persistEntry (d : DLQ) (entry : DeadLetterEntry) : (d.persistEntry entry).dir = d.dir := by
  unfold DLQ.persistEntry
  split <;> rfl

@[simp]
theorem dir_removePersisted (d : DLQ) (id : String) : (d.removePersisted id).dir = d.dir := by
  unfold DLQ.removePersisted
  split <;> rfl

@[simp]
theorem maxSize_persistEntry (d : DLQ) (entry : DeadLetterEntry) : (d.persistEntry entry).maxSize = d.maxSize := by
  unfold DLQ.persistEntry
  split <;> rfl

@[simp]
theorem maxSize_removePersisted (d : DLQ) (id : String) : (d.removePersisted id).maxSize = d.maxSize := by
  unfold DLQ.removePersisted
  split <;> rfl

/-- Ids may be moved between the queue and the entries that wait. -/
theorem Tidy.moved {d' : DLQ} {waiting' : List String} (tidy : Tidy waiting d) (dir : d'.dir = d.dir)
    (files : d'.files = d.files) (all : (ids d ++ waiting).Perm (ids d' ++ waiting'))
    (bounded : d'.entries.length ≤ d'.maxSize) : Tidy waiting' d' where
  dir := dir ▸ tidy.dir
  files id := by rw [fileIDs, files, ← all.mem_iff, ← tidy.files, fileIDs]
  single := by rw [fileIDs, files]; exact tidy.single
  nodup := all.nodup_iff.mp tidy.nodup
  bounded := bounded

theorem tidy_done {id : String} (tidy : Tidy (id :: waiting) d) : Tidy waiting (d.removePersisted id) := by
  obtain ⟨dir, files, single, nodup, bounded⟩ := tidy
  have listed : ids (d.removePersisted id) = ids d := by simp [ids]
  rw [nodup_middle, nodup_cons] at nodup
  refine ⟨?_, ?_, ?_, ?_, ?_⟩
  · simpa using dir
  · intro other
    rw [fileIDs_removePersisted dir, mem_filter]
    grind
  · rw [fileIDs_removePersisted dir]
    exact single.filter _
  · rw [listed]
    exact nodup.2
  · simpa using bounded

/-- After an eviction there is room, and the file of the oldest entry is gone. -/
theorem tidy_evict (tidy : Tidy waiting d) : Tidy waiting d.evict.1 ∧ d.evict.1.entries.length < d.evict.1.maxSize := by
  have positive := d.maxSize_pos
  unfold DLQ.evict
  split
  · rename_i oldest rest listed
    split
    · have shorter : rest.length < d.maxSize := by simpa [listed, Nat.succ_le_iff] using tidy.bounded
      have all : (ids d ++ waiting).Perm (ids { d with entries := rest } ++ oldest.id :: waiting) := by
        simpa [ids, listed] using perm_middle.symm
      have waits : Tidy (oldest.id :: waiting) { d with entries := rest } :=
        tidy.moved rfl rfl all (Nat.le_of_lt shorter)
      exact ⟨tidy_done waits, by simpa using shorter⟩
    · rename_i room
      exact ⟨tidy, Nat.lt_of_not_le room⟩
  · rename_i listed
    exact ⟨tidy, by simp [listed, positive]⟩

theorem tidy_append (dir : d.dir ≠ "") (files : ∀ id, id ≠ entry.id → (id ∈ fileIDs d ↔ id ∈ ids d ++ waiting))
    (single : (fileIDs d).Nodup) (nodup : (ids d ++ entry.id :: waiting).Nodup)
    (room : d.entries.length < d.maxSize) :
    Tidy waiting (DLQ.persistEntry { d with entries := d.entries ++ [entry] } entry) := by
  have dir' : { d with entries := d.entries ++ [entry] }.dir ≠ "" := dir
  have listed : ids (DLQ.persistEntry { d with entries := d.entries ++ [entry] } entry) = ids d ++ [entry.id] := by
    simp [ids]
  have stored : fileIDs (DLQ.persistEntry { d with entries := d.entries ++ [entry] } entry) =
      (fileIDs d).filter (· ≠ entry.id) ++ [entry.id] := by
    simp [fileIDs, DLQ.persistEntry, dir', filter_map, Function.comp_def]
  refine ⟨?_, ?_, ?_, ?_, ?_⟩
  · simpa using dir
  · intro id
    rw [stored, listed]
    by_cases own : id = entry.id
    · simp [own]
    · simp [own, files id own]
  · rw [stored]
    refine nodup_append.mpr ⟨single.filter _, by simp, ?_⟩
    intro id there other own same
    simp_all
  · rw [listed]
    simpa using nodup
  · simp only [entries_persistEntry, maxSize_persistEntry, length_append, length_singleton]
    omega

theorem ids_evict (d : DLQ) : (ids d.evict.1).Sublist (ids d) := by
  unfold DLQ.evict
  split
  · rename_i oldest rest listed
    split
    · simp [ids, listed]
    · exact List.Sublist.refl _
  · exact List.Sublist.refl _

theorem tidy_push (tidy : Tidy waiting d) (new : entry.id ∉ ids d ++ waiting) : Tidy waiting (d.push entry).1 := by
  obtain ⟨evicted, room⟩ := tidy_evict tidy
  have absent : entry.id ∉ ids d.evict.1 ++ waiting :=
    fun there => new (((ids_evict d).append_right waiting).subset there)
  refine tidy_append evicted.dir (fun id _ => evicted.files id) evicted.single ?_ room
  rw [nodup_middle, nodup_cons]
  exact ⟨absent, evicted.nodup⟩

theorem tidy_again (tidy : Tidy (entry.id :: waiting) d) : Tidy waiting (d.push entry).1 := by
  obtain ⟨evicted, room⟩ := tidy_evict tidy
  have files (id : String) (other : id ≠ entry.id) : id ∈ fileIDs d.evict.1 ↔ id ∈ ids d.evict.1 ++ waiting := by
    rw [evicted.files]
    simp [other]
  exact tidy_append evicted.dir files evicted.single evicted.nodup room

theorem tidy_sendNew (tidy : Tidy waiting d) (new : safeID entry.id = true → entry.id ∉ ids d ++ waiting) :
    Tidy waiting (d.sendNew entry).1 := by
  unfold DLQ.sendNew DLQ.send
  cases valid : safeID entry.id with
  | false => exact tidy
  | true => exact tidy_push tidy (new valid)

theorem tidy_sendAll {sends : List DeadLetterEntry} (tidy : Tidy waiting d) (apart : Apart waiting d sends) :
    Tidy waiting (d.sendAll sends).1 := by
  induction sends generalizing d with
  | nil => exact tidy
  | cons entry sends ih => exact ih (tidy_sendNew tidy apart.1) apart.2

/-- `LoadFromMessages` skips the ids that are in the queue. -/
theorem tidy_loadLoop (entries : List DeadLetterEntry) {existing : List String} (tidy : Tidy [] d)
    (known : ids d ⊆ existing) : Tidy [] (d.loadLoop existing entries).1 := by
  induction entries generalizing d existing with
  | nil => exact tidy
  | cons entry entries ih =>
    unfold DLQ.loadLoop
    split
    · exact ih tidy known
    · split
      · exact ih tidy known
      · rename_i other
        have new : entry.id ∉ ids d ++ [] := fun there => other (known (by simpa using there))
        apply ih (tidy_push tidy new)
        intro id there
        have listed : ids (d.push entry).1 = ids d.evict.1 ++ [entry.id] := by simp [ids, DLQ.push]
        rw [listed, mem_append, mem_singleton] at there
        rcases there with old | rfl
        · exact mem_cons_of_mem _ (known ((ids_evict d).subset old))
        · exact mem_cons_self

theorem tidy_attempt {fn : DeadLetterEntry → Replayed} (tidy : Tidy (entry.id :: waiting) d)
    (safe : safeID entry.id = true)
    (apart : Apart (entry.id :: waiting) d (fn (DLQ.retried entry)).sends) :
    Tidy waiting (DLQ.attempt fn d entry).1 := by
  have sent := tidy_sendAll tidy apart
  unfold DLQ.attempt
  cases (fn (DLQ.retried entry)).outcome with
  | nil => exact tidy_done sent
  | error e | panic value =>
    have valid : safeID (DLQ.retried entry).id = true := safe
    have waits : Tidy ((DLQ.retried entry).id :: waiting) (d.sendAll (fn (DLQ.retried entry)).sends).1 := sent
    simp only [DLQ.send, valid]
    exact tidy_again waits

theorem tidy_replayLoop {fn : DeadLetterEntry → Replayed} {batch : List DeadLetterEntry}
    (tidy : Tidy (batch.map (·.id)) d) (safe : ∀ entry ∈ batch, safeID entry.id = true)
    (apart : ApartLoop fn d batch) : Tidy [] (DLQ.replayLoop fn d batch).1 := by
  induction batch generalizing d with
  | nil => exact tidy
  | cons entry batch ih =>
    rw [forall_mem_cons] at safe
    exact ih (tidy_attempt tidy safe.1 apart.1) safe.2 apart.2

theorem tidy_takeOut {id : String} (tidy : Tidy [] d) (found : d.entries.find? (·.id = id) = some entry) :
    Tidy [] (d.takeOut id) := by
  have taken := ids_perm_takeOut found
  have listed : ids (d.takeOut id) = ids { d with entries := d.entries.eraseP (·.id = id) } := by
    simp [ids, DLQ.takeOut]
  rw [listed, ← append_nil (ids d)] at taken
  have waits : Tidy [id] { d with entries := d.entries.eraseP (·.id = id) } :=
    tidy.moved rfl rfl taken (Nat.le_trans length_eraseP_le tidy.bounded)
  exact tidy_done waits

theorem tidy_emptied (tidy : Tidy [] d) : Tidy (ids d) d.emptied :=
  tidy.moved rfl rfl (by simp [ids, DLQ.emptied]) (Nat.zero_le _)

theorem tidy_cleared {entries : List DeadLetterEntry} (tidy : Tidy (entries.map (·.id)) d) :
    Tidy [] (entries.foldl (fun d entry => d.removePersisted entry.id) d) := by
  induction entries generalizing d with
  | nil => exact tidy
  | cons entry entries ih => exact ih (tidy_done tidy)

theorem restart_eq (dir : d.dir ≠ "") (maxSize : Int) :
    (d.restart maxSize).dir = d.dir ∧ (d.restart maxSize).files = d.files ∧ (d.restart maxSize).entries.Perm d.files ∧
      (d.restart maxSize).maxSize = (newDLQ maxSize d.producer d.dir).maxSize := by
  have same : (newDLQ maxSize d.producer d.dir).dir = d.dir := by
    unfold newDLQ
    split <;> rfl
  simp only [DLQ.restart, dir, if_false, DLQ.loadFromDir, entries_newDLQ, nil_append, same, and_true, true_and]
  exact mergeSort_perm _ _

theorem Tidy.perm (tidy : Tidy waiting d) : (fileIDs d).Perm (ids d ++ waiting) :=
  (perm_ext_iff_of_nodup tidy.single tidy.nodup).mpr tidy.files

theorem files_length (tidy : Tidy [] d) : d.files.length = d.entries.length := by
  simpa [fileIDs, ids] using tidy.perm.length_eq

theorem tidy_restart {maxSize : Int} (tidy : Tidy [] d)
    (room : d.entries.length ≤ (newDLQ maxSize d.producer d.dir).maxSize) : Tidy [] (d.restart maxSize) := by
  obtain ⟨dir, files, entries, size⟩ := restart_eq tidy.dir maxSize
  have listed : (ids (d.restart maxSize)).Perm (fileIDs d) := entries.map _
  refine tidy.moved dir files ?_ ?_
  · rw [append_nil (ids (d.restart maxSize))]
    exact (listed.trans tidy.perm).symm
  · rw [entries.length_eq, size, files_length tidy]
    exact room

theorem safe_restart {maxSize : Int} (tidy : Tidy [] d) (safe : Safe d) : Safe (d.restart maxSize) := by
  obtain ⟨-, -, entries, -⟩ := restart_eq tidy.dir maxSize
  intro entry there
  have filed : entry.id ∈ fileIDs d := mem_map_of_mem (entries.mem_iff.mp there)
  rw [tidy.files, append_nil] at filed
  obtain ⟨queued, member, same⟩ := mem_map.mp filed
  rw [← same]
  exact safe queued member

/-- Without a function, the files of the entries that `ReplayAll` takes out are left. -/
theorem step_replayAll (tidy : Tidy [] d) (safe : Safe d)
    (fresh : ∀ fn, d.replayFn = some fn → ApartLoop fn d.emptied d.entries) :
    (Agrees d.replayAll.1 → d.entries ≠ [] → d.replayFn ≠ none) ∧
      ((d.entries ≠ [] → d.replayFn ≠ none) → Tidy [] d.replayAll.1) := by
  have tidied := tidy_emptied tidy
  unfold DLQ.replayAll
  cases given : d.replayFn with
  | none =>
    constructor
    · intro agrees nonempty
      obtain ⟨entry, member⟩ := exists_mem_of_ne_nil _ nonempty
      have queued : entry.id ∈ ids d := mem_map_of_mem member
      have filed : entry.id ∈ fileIDs d := (tidy.files _).mpr (by simpa using queued)
      have left : entry.id ∈ ids d.emptied := (agrees.files entry.id).mp filed
      simp [ids, DLQ.emptied] at left
    · intro room
      have empty : ids d = [] := by
        by_contra nonempty
        exact room (fun none => nonempty (by simp [ids, none])) rfl
      rw [empty] at tidied
      exact tidied
  | some fn =>
    refine ⟨fun _ _ => Option.some_ne_none fn, fun _ => ?_⟩
    exact tidy_replayLoop tidied safe (fresh fn given)

/-- What a step does: the files agree with the queue after it only if there is room, and then no
id is there twice. -/
theorem step_tidy (unmarshal : Bytes → Option DeadLetterEntry) (d : DLQ) (step : Step)
    (start : Tidy [] d ∧ Safe d) (fresh : Fresh d step) :
    (Agrees ((processes unmarshal).handle d step).1 → Roomy d step) ∧
      (Roomy d step → Tidy [] ((processes unmarshal).handle d step).1 ∧
        Safe ((processes unmarshal).handle d step).1) := by
  obtain ⟨tidy, safe⟩ := start
  cases step with
  | restart maxSize =>
    refine ⟨?_, fun room => ⟨tidy_restart tidy room, safe_restart tidy safe⟩⟩
    intro agrees
    obtain ⟨-, -, entries, size⟩ := restart_eq tidy.dir maxSize
    have bounded : (d.restart maxSize).entries.length ≤ (d.restart maxSize).maxSize := agrees.bounded
    rw [entries.length_eq, size, files_length tidy] at bounded
    exact bounded
  | call op =>
    have kept := (handle_moves unmarshal d op safe).1
    cases op with
    | setReplayFn fn =>
      refine ⟨fun _ => trivial, fun _ => ⟨?_, kept⟩⟩
      exact ⟨tidy.dir, tidy.files, tidy.single, tidy.nodup, tidy.bounded⟩
    | send entry => exact ⟨fun _ => trivial, fun _ => ⟨tidy_sendNew tidy fresh.1, kept⟩⟩
    | loadFromMessages messages =>
      exact ⟨fun _ => trivial, fun _ => ⟨tidy_loadLoop _ tidy (List.Subset.refl _), kept⟩⟩
    | replay id =>
      refine ⟨fun _ => trivial, fun _ => ⟨?_, kept⟩⟩
      change Tidy [] (d.replay id).1
      unfold DLQ.replay
      split
      · exact tidy
      · rename_i entry found
        split
        · exact tidy_takeOut tidy found
        · rename_i fn given
          exact tidy_sendAll (tidy_takeOut tidy found) (fresh entry fn found given)
    | replayAll =>
      obtain ⟨meets, tidies⟩ := step_replayAll tidy safe fresh
      exact ⟨meets, fun room => ⟨tidies room, kept⟩⟩
    | clear =>
      refine ⟨fun _ => trivial, fun _ => ⟨?_, kept⟩⟩
      exact tidy_cleared (tidy_emptied tidy)

theorem tidy_newDLQ (maxSize : Int) (producer : Option (DeadLetterEntry → Option String)) {dir : String}
    (given : dir ≠ "") : Tidy [] (newDLQ maxSize producer dir) := by
  unfold newDLQ
  split <;> exact ⟨given, by simp [fileIDs, ids], by simp [fileIDs], by simp [ids], Nat.zero_le _⟩

/-- If no id is sent while it is in use, memory and disk agree after every step exactly if
`ReplayAll` finds a function or nothing to replay, and every new process has room for what it
finds. -/
theorem agrees_iff (unmarshal : Bytes → Option DeadLetterEntry) (maxSize : Int)
    (producer : Option (DeadLetterEntry → Option String)) {dir : String} (given : dir ≠ "") (steps : List Step)
    (fresh : (processes unmarshal).Throughout Fresh (newDLQ maxSize producer dir) steps) :
    (processes unmarshal).Always Agrees (newDLQ maxSize producer dir) steps ↔
      (processes unmarshal).Throughout Roomy (newDLQ maxSize producer dir) steps := by
  refine Component.always_iff_throughout _ (I := fun d => Tidy [] d ∧ Safe d) ?_ (step_tidy unmarshal) ?_ fresh
  · rintro d ⟨tidy, -⟩
    exact ⟨fun id => by simpa using tidy.files id, tidy.bounded⟩
  · exact ⟨tidy_newDLQ maxSize producer given, by simp [Safe, entries_newDLQ]⟩

end

/-- The second entry takes the place of the first, and is found by a new process. -/
theorem agrees_evicted : (processes fun _ => none).Always Agrees (newDLQ 1 none "dlq")
      [.call (.send { id := "a" }), .call (.send { id := "b" }), .restart 1] := by
  refine (agrees_iff _ 1 none (by decide) _ ?_).mpr ⟨trivial, trivial, ?_, trivial⟩
  · exact ⟨⟨fun _ => by decide, trivial⟩, ⟨fun _ => by decide, trivial⟩, trivial, trivial⟩
  · change (1 : Nat) ≤ 1
    decide

/-- Files are left if there is no replay function, a new process finds more than it has room for,
and an entry whose id is there twice loses its file. -/
theorem files_disagree :
    let after (maxSize : Int) := (processes fun _ => none).after (newDLQ maxSize none "dlq")
    let a : DeadLetterEntry := { id := "a" }
    ¬ Agrees (after 2 [.call (.send a), .call .replayAll]) ∧
      ¬ Agrees (after 2 [.call (.send a), .call (.send { id := "b" }), .restart 1]) ∧
      ¬ Agrees (after 2 [.call (.send a), .call (.send a), .call (.replay "a")]) := by
  refine ⟨?_, ?_, ?_⟩
  · intro agrees
    exact absurd ((agrees.files "a").mp (by decide)) (by decide)
  · intro agrees
    let d := (processes fun _ => none).after (newDLQ 2 none "dlq")
      [.call (.send { id := "a" }), .call (.send { id := "b" })]
    have dir : d.dir ≠ "" := by decide
    obtain ⟨-, -, entries, size⟩ := restart_eq dir 1
    have bounded : (d.restart 1).entries.length ≤ (d.restart 1).maxSize := agrees.bounded
    rw [entries.length_eq] at bounded
    exact absurd bounded (by decide)
  · intro agrees
    exact absurd ((agrees.files "a").mpr (by decide)) (by decide)

end FlowRulZ.DeadLetters
