import FlowRulZ.Bytecode.Plan
import FlowRulZ.Lib.Ledger

/-! # The dead letter queue

`DLQ` keeps entries in memory and in files.  `Replay` and `ReplayAll` take entries out before
they call the replay function.  `ReplayAll` sends an entry back if the function fails or
panics; `Replay` does not, and without a function the entries of both are dropped.  Times
are left out.
-/

namespace FlowRulZ.DeadLetters

open List

open Ledger

structure DeadLetterEntry where
  id : String
  ruleID : String := ""
  topic : String := ""
  partition : Int := 0
  offset : Int := 0
  body : Bytes := []
  error : String := ""
  retryCount : Nat := 0
  deriving Repr, DecidableEq

inductive Outcome where
  | nil
  | error (e : String)
  | panic (value : String)
  deriving Repr, DecidableEq

/-- What the replay function does: it may send entries itself before it ends. -/
structure Replayed where
  sends : List DeadLetterEntry
  outcome : Outcome
  deriving Repr, DecidableEq

/-- The queue, with the entries of the files in its directory. -/
structure DLQ where
  entries : List DeadLetterEntry := []
  maxSize : Nat
  maxSize_pos : 0 < maxSize
  replayFn : Option (DeadLetterEntry → Replayed) := none
  producer : Option (DeadLetterEntry → Option String) := none
  dir : String := ""
  files : List DeadLetterEntry := []

/-- `NewDLQ`, in a directory without entries. -/
def newDLQ (maxSize : Int) (producer : Option (DeadLetterEntry → Option String)) (dir : String) : DLQ :=
  if given : maxSize ≤ 0 then { maxSize := 10000, maxSize_pos := by decide, producer, dir }
  else { maxSize := maxSize.toNat, maxSize_pos := by omega, producer, dir }

def safeID (id : String) : Bool :=
  id ≠ "" && id.toList.all fun c => c.isAlphanum || c = '_' || c = '-'

inductive SendError where
  | invalidEntryID (id : String)
  | produce (e : String)
  deriving Repr, DecidableEq

inductive Event where
  | accepted (id : String)
  | evicted (id : String)
  | cleared (id : String)
  | replayed (id : String) (outcome : Outcome)
  deriving Repr, DecidableEq

namespace DLQ

variable (d : DLQ)

def persistEntry (entry : DeadLetterEntry) : DLQ :=
  if d.dir = "" then d else { d with files := d.files.filter (·.id ≠ entry.id) ++ [entry] }

def removePersisted (id : String) : DLQ :=
  if d.dir = "" then d else { d with files := d.files.filter (·.id ≠ id) }

def evict : DLQ × List Event :=
  match d.entries with
  | oldest :: rest =>
    if d.maxSize ≤ d.entries.length then
      (removePersisted { d with entries := rest } oldest.id, [.evicted oldest.id])
    else (d, [])
  -- `maxSize` is positive
  | [] => (d, [])

/-- What `Send` and `LoadFromMessages` do with a new entry. -/
def push (entry : DeadLetterEntry) : DLQ × List Event :=
  let (d, evicted) := d.evict
  (persistEntry { d with entries := d.entries ++ [entry] } entry, evicted)

def send (entry : DeadLetterEntry) : DLQ × List Event × Option SendError :=
  if !safeID entry.id then (d, [], some (.invalidEntryID entry.id))
  else
    let (d, evicted) := d.push entry
    (d, evicted, d.producer.bind fun produce => (produce entry).map .produce)

def sendNew (entry : DeadLetterEntry) : DLQ × List Event :=
  let (d', evicted, _) := d.send entry
  (d', evicted ++ if safeID entry.id then [.accepted entry.id] else [])

def sendAll : DLQ → List DeadLetterEntry → DLQ × List Event
  | d, [] => (d, [])
  | d, entry :: rest =>
    let (d, events) := d.sendNew entry
    let (d, more) := sendAll d rest
    (d, events ++ more)

/-- The loop of `LoadFromMessages`, over the messages that can be read. -/
def loadLoop : DLQ → List String → List DeadLetterEntry → DLQ × List Event × Nat
  | d, _, [] => (d, [], 0)
  | d, existing, entry :: rest =>
    if !safeID entry.id then loadLoop d existing rest
    else if entry.id ∈ existing then loadLoop d existing rest
    else
      let (d, evicted) := d.push entry
      let (d, more, added) := loadLoop d (entry.id :: existing) rest
      (d, evicted ++ [Event.accepted entry.id] ++ more, added + 1)

/-- `LoadFromMessages`; a message that `unmarshal` cannot read is skipped. -/
def loadFromMessages (unmarshal : Bytes → Option DeadLetterEntry) (messages : List Bytes) : DLQ × List Event × Nat :=
  d.loadLoop (d.entries.map (·.id)) (messages.filterMap unmarshal)

def retried (entry : DeadLetterEntry) : DeadLetterEntry :=
  { entry with retryCount := entry.retryCount + 1 }

def takeOut (id : String) : DLQ :=
  removePersisted { d with entries := d.entries.eraseP (·.id = id) } id

/-- `Replay`; a panic of the function is not recovered. -/
def replay (id : String) : DLQ × List Event × Outcome :=
  match d.entries.find? (·.id = id) with
  | none => (d, [], .nil)
  | some entry =>
    match d.replayFn with
    | none => (d.takeOut id, [], .nil)
    | some fn =>
      let (d, events) := sendAll (d.takeOut id) (fn (retried entry)).sends
      (d, events ++ [Event.replayed id (fn (retried entry)).outcome], (fn (retried entry)).outcome)

/-- What `ReplayAll` does with an entry; a panic of the function is recovered. -/
def attempt (fn : DeadLetterEntry → Replayed) (d : DLQ) (entry : DeadLetterEntry) : DLQ × List Event :=
  let (d, events) := sendAll d (fn (retried entry)).sends
  let events := events ++ [Event.replayed entry.id (fn (retried entry)).outcome]
  match (fn (retried entry)).outcome with
  | .nil => (d.removePersisted entry.id, events)
  | .error _ | .panic _ =>
    let (d, evicted, _) := d.send (retried entry)
    (d, events ++ evicted)

def replayLoop (fn : DeadLetterEntry → Replayed) : DLQ → List DeadLetterEntry → DLQ × List Event × Nat
  | d, [] => (d, [], 0)
  | d, entry :: rest =>
    let (d, events) := attempt fn d entry
    let (d, more, count) := replayLoop fn d rest
    (d, events ++ more, if (fn (retried entry)).outcome = .nil then count + 1 else count)

def emptied : DLQ := { d with entries := [] }

def replayAll : DLQ × List Event × Nat :=
  match d.replayFn with
  | none => (d.emptied, [], 0)
  | some fn => replayLoop fn d.emptied d.entries

def clear : DLQ × List Event :=
  (d.entries.foldl (fun d entry => removePersisted d entry.id) d.emptied, d.entries.map (.cleared ·.id))

end DLQ

inductive Op where
  | setReplayFn (fn : Option (DeadLetterEntry → Replayed))
  | send (entry : DeadLetterEntry)
  | loadFromMessages (messages : List Bytes)
  | replay (id : String)
  | replayAll
  | clear

def queue (unmarshal : Bytes → Option DeadLetterEntry) : Component DLQ Op Event where
  handle d op :=
    match op with
    | .setReplayFn fn => ({ d with replayFn := fn }, [])
    | .send entry => d.sendNew entry
    | .loadFromMessages messages =>
      ((d.loadFromMessages unmarshal messages).1, (d.loadFromMessages unmarshal messages).2.1)
    | .replay id => ((d.replay id).1, (d.replay id).2.1)
    | .replayAll => (d.replayAll.1, d.replayAll.2.1)
    | .clear => d.clear

/-! ## What the queue is for -/

def ids (d : DLQ) : List String := d.entries.map (·.id)

def Event.accepted? : Event → Option String
  | .accepted id => some id
  | _ => none

def Event.departed? : Event → Option String
  | .evicted id | .cleared id | .replayed id .nil => some id
  | _ => none

/-- Every entry that was accepted is in the queue, or has left it for a reason. -/
def Kept (ran : DLQ × List Event) : Prop :=
  ∀ id, .accepted id ∈ ran.2 → id ∈ ids ran.1 ∨ ∃ event ∈ ran.2, event.departed? = some id

/-- Entries are only taken out for a replay function, and for `Replay` one that succeeds. -/
def Careful (d : DLQ) : Op → Prop
  | .replay id => ∀ entry, d.entries.find? (·.id = id) = some entry →
      ∃ fn, d.replayFn = some fn ∧ (fn (DLQ.retried entry)).outcome = .nil
  | .replayAll => d.entries ≠ [] → d.replayFn ≠ none
  | _ => True

/-! ## Entries come and go -/

def Safe (d : DLQ) : Prop := ∀ entry ∈ d.entries, safeID entry.id = true

/-- The account of some steps. -/
def Moves (before : List String) (ran : DLQ × List Event) (lost : List String) : Prop :=
  Balanced before (ran.2.filterMap Event.accepted?) (ids ran.1) (ran.2.filterMap Event.departed?) lost

section

variable {d d' d'' : DLQ} {entry : DeadLetterEntry} {before : List String} {events more : List Event}

theorem Moves.trans (first : Moves before (d', events) []) (second : Moves (ids d') (d'', more) []) :
    Moves before (d'', events ++ more) [] := by
  simpa [Moves] using Balanced.trans first second

@[simp]
theorem acceptedIds_cons (id : String) (events : List Event) :
    (.accepted id :: events : List Event).filterMap Event.accepted? = id :: events.filterMap Event.accepted? := rfl

@[simp]
theorem departedIds_cons_accepted (id : String) (events : List Event) :
    (.accepted id :: events : List Event).filterMap Event.departed? = events.filterMap Event.departed? := rfl

@[simp]
theorem acceptedIds_cons_replayed (id : String) (outcome : Outcome) (events : List Event) :
    (.replayed id outcome :: events : List Event).filterMap Event.accepted? = events.filterMap Event.accepted? := rfl

@[simp]
theorem departedIds_cons_replayed (id : String) (outcome : Outcome) (events : List Event) :
    (.replayed id outcome :: events : List Event).filterMap Event.departed? =
      (if outcome = .nil then [id] else []) ++ events.filterMap Event.departed? := by
  cases outcome <;> rfl

section

variable (d : DLQ)

@[simp]
theorem entries_persistEntry (entry : DeadLetterEntry) : (d.persistEntry entry).entries = d.entries := by
  unfold DLQ.persistEntry
  split <;> rfl

@[simp]
theorem entries_removePersisted (id : String) : (d.removePersisted id).entries = d.entries := by
  unfold DLQ.removePersisted
  split <;> rfl

theorem moves_evict : Moves (ids d) d.evict [] := by
  unfold DLQ.evict
  split
  · rename_i oldest rest listed
    split
    · intro id
      have none_ : [Event.evicted oldest.id].filterMap Event.accepted? = [] := rfl
      have gone : [Event.evicted oldest.id].filterMap Event.departed? = [oldest.id] := rfl
      simp [ids, listed, none_, gone, count_cons]
    · exact .refl _
  · exact .refl _

theorem accepted_evict : d.evict.2.filterMap Event.accepted? = [] := by
  unfold DLQ.evict
  split
  · split <;> rfl
  · rfl

theorem moves_push (entry : DeadLetterEntry) : Moves (ids d ++ [entry.id]) (d.push entry) [] := by
  intro id
  have evicted := moves_evict d id
  simp only [DLQ.push, ids, entries_persistEntry, map_append, count_append] at evicted ⊢
  simp only [map_cons, map_nil]
  omega

theorem accepted_push (entry : DeadLetterEntry) : (d.push entry).2.filterMap Event.accepted? = [] :=
  accepted_evict d

theorem moves_accept (entry : DeadLetterEntry) :
    Moves (ids d) ((d.push entry).1, (d.push entry).2 ++ [Event.accepted entry.id]) [] := by
  intro id
  have pushed := moves_push d entry id
  simp [accepted_push] at pushed ⊢
  omega

theorem moves_sendNew (entry : DeadLetterEntry) : Moves (ids d) (d.sendNew entry) [] := by
  unfold DLQ.sendNew DLQ.send
  cases safeID entry.id with
  | false => exact .refl _
  | true => exact moves_accept d entry

end

theorem moves_sendAll (sends : List DeadLetterEntry) (d : DLQ) : Moves (ids d) (d.sendAll sends) [] := by
  induction sends generalizing d with
  | nil => exact .refl _
  | cons entry sends ih => exact (moves_sendNew d entry).trans (ih _)

theorem moves_loadLoop (entries : List DeadLetterEntry) (d : DLQ) (existing : List String) :
    Moves (ids d) ((d.loadLoop existing entries).1, (d.loadLoop existing entries).2.1) [] := by
  induction entries generalizing d existing with
  | nil => exact .refl _
  | cons entry entries ih =>
    unfold DLQ.loadLoop
    split
    · exact ih d existing
    · split
      · exact ih d existing
      · exact (moves_accept d entry).trans (ih _ _)

theorem ids_perm_takeOut {id : String} (found : d.entries.find? (·.id = id) = some entry) :
    (ids d).Perm (ids (d.takeOut id) ++ [id]) := by
  obtain ⟨same, older, newer, listed, apart⟩ := find?_eq_some_iff_append.mp found
  have named : entry.id = id := by simpa using same
  have passed : ∀ e ∈ older, ¬ (decide (e.id = id)) = true := by
    intro e there
    simpa using apart e there
  rw [ids, ids, DLQ.takeOut, listed, eraseP_append_right _ passed]
  simpa [named] using perm_middle.trans (perm_append_singleton _ _).symm

theorem moves_again (d : DLQ) (safe : safeID entry.id = true) :
    Moves (ids d ++ [entry.id]) ((d.send (DLQ.retried entry)).1, (d.send (DLQ.retried entry)).2.1) [] := by
  have valid : safeID (DLQ.retried entry).id = true := safe
  simp only [DLQ.send, valid]
  exact moves_push d (DLQ.retried entry)

theorem moves_attempt (fn : DeadLetterEntry → Replayed) (d : DLQ) (safe : safeID entry.id = true) :
    Moves (ids d ++ [entry.id]) (DLQ.attempt fn d entry) [] := by
  have sent := (moves_sendAll (fn (DLQ.retried entry)).sends d).frame [entry.id]
  unfold DLQ.attempt
  cases ended : (fn (DLQ.retried entry)).outcome with
  | nil => simpa [Moves, ids] using sent.trans (.leave _ entry.id)
  | error e | panic value =>
    have again := moves_again (d.sendAll (fn (DLQ.retried entry)).sends).1 safe
    simpa [Moves] using sent.trans again

/-- The batch of `ReplayAll` is replayed or back in the queue. -/
theorem moves_replayLoop (fn : DeadLetterEntry → Replayed) (batch : List DeadLetterEntry) (d : DLQ)
    (safe : ∀ entry ∈ batch, safeID entry.id = true) :
    Moves (ids d ++ batch.map (·.id)) ((DLQ.replayLoop fn d batch).1, (DLQ.replayLoop fn d batch).2.1) [] := by
  induction batch generalizing d with
  | nil =>
    rw [map_nil, append_nil]
    exact .refl _
  | cons entry batch ih =>
    have first := (moves_attempt fn d (safe entry mem_cons_self)).frame (batch.map (·.id))
    have rest := ih (DLQ.attempt fn d entry).1 fun e there => safe e (mem_cons_of_mem _ there)
    simpa [Moves, DLQ.replayLoop] using first.trans rest

theorem moves_replay (d : DLQ) (id : String) : ∃ lost, Moves (ids d) ((d.replay id).1, (d.replay id).2.1) lost ∧
      (lost = [] ↔ Careful d (.replay id)) := by
  unfold DLQ.replay Careful
  cases found : d.entries.find? (·.id = id) with
  | none => exact ⟨[], .refl _, by simp [found]⟩
  | some entry =>
    have taken := ids_perm_takeOut found
    cases given : d.replayFn with
    | none => exact ⟨[id], (Balanced.lose _ id).of_perm taken, by simp [found]⟩
    | some fn =>
      have sent := ((moves_sendAll (fn (DLQ.retried entry)).sends (d.takeOut id)).frame [id]).of_perm taken
      cases ended : (fn (DLQ.retried entry)).outcome with
      | nil =>
        refine ⟨[], ?_, by simp [found, ended]⟩
        simpa [Moves, ended] using sent.trans (.leave _ id)
      | error e | panic value =>
        refine ⟨[id], ?_, by simp [found, ended]⟩
        simpa [Moves, ended] using sent.trans (.lose _ id)

theorem moves_replayAll (safe : Safe d) :
    ∃ lost, Moves (ids d) (d.replayAll.1, d.replayAll.2.1) lost ∧ (lost = [] ↔ Careful d .replayAll) := by
  unfold DLQ.replayAll Careful
  cases given : d.replayFn with
  | none =>
    refine ⟨ids d, ?_, by simp [ids]⟩
    intro id
    simp [ids, DLQ.emptied]
  | some fn =>
    refine ⟨[], ?_, by simp⟩
    exact moves_replayLoop fn d.entries d.emptied safe

theorem entries_foldl_removePersisted (entries : List DeadLetterEntry) (d : DLQ) :
    (entries.foldl (fun d entry => d.removePersisted entry.id) d).entries = d.entries := by
  induction entries generalizing d with
  | nil => rfl
  | cons entry entries ih => rw [foldl_cons, ih, entries_removePersisted]

theorem moves_clear (d : DLQ) : Moves (ids d) d.clear [] := by
  have gone : d.clear.1.entries = [] := entries_foldl_removePersisted _ _
  have accepted : d.clear.2.filterMap Event.accepted? = [] := by
    simp [DLQ.clear, filterMap_map, Function.comp_def, Event.accepted?]
  have departed : d.clear.2.filterMap Event.departed? = ids d := by
    simp [DLQ.clear, filterMap_map, Function.comp_def, Event.departed?, ids]
  intro id
  simp [ids, gone, accepted, departed]

/-! ## Ids stay safe -/

theorem safe_push (safe : Safe d) (valid : safeID entry.id = true) : Safe (d.push entry).1 := by
  have evicted : Safe d.evict.1 := by
    unfold DLQ.evict
    split
    · rename_i oldest rest listed
      split
      · intro e there
        exact safe e (by rw [listed]; exact mem_cons_of_mem _ (by simpa using there))
      · exact safe
    · exact safe
  intro e there
  simp only [DLQ.push, entries_persistEntry, mem_append, mem_singleton] at there
  rcases there with old | rfl
  · exact evicted e old
  · exact valid

theorem safe_send (safe : Safe d) (entry : DeadLetterEntry) : Safe (d.send entry).1 := by
  unfold DLQ.send
  cases valid : safeID entry.id with
  | false => exact safe
  | true => exact safe_push safe valid

theorem safe_sendAll (sends : List DeadLetterEntry) (safe : Safe d) : Safe (d.sendAll sends).1 := by
  induction sends generalizing d with
  | nil => exact safe
  | cons entry sends ih => exact ih (safe_send safe entry)

theorem safe_loadLoop (entries : List DeadLetterEntry) (existing : List String) (safe : Safe d) :
    Safe (d.loadLoop existing entries).1 := by
  induction entries generalizing d existing with
  | nil => exact safe
  | cons entry entries ih =>
    unfold DLQ.loadLoop
    split
    · exact ih existing safe
    · rename_i valid
      split
      · exact ih existing safe
      · exact ih _ (safe_push safe (by simpa using valid))

theorem safe_attempt (fn : DeadLetterEntry → Replayed) (entry : DeadLetterEntry) (safe : Safe d) :
    Safe (DLQ.attempt fn d entry).1 := by
  have sent := safe_sendAll (fn (DLQ.retried entry)).sends safe
  unfold DLQ.attempt
  cases (fn (DLQ.retried entry)).outcome with
  | nil => simpa [Safe] using sent
  | error e | panic value => exact safe_send sent _

theorem safe_replayLoop (fn : DeadLetterEntry → Replayed) (batch : List DeadLetterEntry) (safe : Safe d) :
    Safe (DLQ.replayLoop fn d batch).1 := by
  induction batch generalizing d with
  | nil => exact safe
  | cons entry batch ih => exact ih (safe_attempt fn entry safe)

theorem safe_takeOut (id : String) (safe : Safe d) : Safe (d.takeOut id) := by
  intro e there
  simp only [DLQ.takeOut, entries_removePersisted] at there
  exact safe e (mem_of_mem_eraseP there)

theorem safe_replay (id : String) (safe : Safe d) : Safe (d.replay id).1 := by
  unfold DLQ.replay
  split
  · exact safe
  · split
    · exact safe_takeOut id safe
    · exact safe_sendAll _ (safe_takeOut id safe)

theorem safe_replayAll (d : DLQ) : Safe d.replayAll.1 := by
  have empty : Safe d.emptied := by simp [Safe, DLQ.emptied]
  unfold DLQ.replayAll
  split
  · exact empty
  · exact safe_replayLoop _ _ empty

/-- What every call does: nothing is lost by it if and only if it is careful. -/
theorem handle_moves (unmarshal : Bytes → Option DeadLetterEntry) (d : DLQ) (op : Op) (safe : Safe d) :
    Safe ((queue unmarshal).handle d op).1 ∧
      ∃ lost, Moves (ids d) ((queue unmarshal).handle d op) lost ∧ (lost = [] ↔ Careful d op) := by
  cases op with
  | setReplayFn fn => exact ⟨safe, [], .refl _, by simp [Careful]⟩
  | send entry => exact ⟨safe_send safe entry, [], moves_sendNew d entry, by simp [Careful]⟩
  | loadFromMessages messages =>
    exact ⟨safe_loadLoop _ _ safe, [], moves_loadLoop _ _ _, by simp [Careful]⟩
  | replay id => exact ⟨safe_replay id safe, moves_replay d id⟩
  | replayAll => exact ⟨safe_replayAll d, moves_replayAll safe⟩
  | clear =>
    refine ⟨?_, [], moves_clear d, by simp [Careful]⟩
    have gone : d.clear.1.entries = [] := entries_foldl_removePersisted _ _
    simp [Safe, queue, gone]

theorem entries_newDLQ (maxSize : Int) (producer : Option (DeadLetterEntry → Option String)) (dir : String) :
    (newDLQ maxSize producer dir).entries = [] := by
  unfold newDLQ
  split <;> rfl

theorem mem_acceptedIds {id : String} : .accepted id ∈ events ↔ id ∈ events.filterMap Event.accepted? := by
  constructor
  · intro there
    exact mem_filterMap.mpr ⟨_, there, rfl⟩
  · intro there
    obtain ⟨event, there, named⟩ := mem_filterMap.mp there
    cases event <;> cases named
    exact there

/-- If all entries have different ids, an accepted entry is in the queue or has left it for a reason, if and only if no
call takes entries out without a replay function, or for one that does not succeed and is called by `Replay`. -/
theorem kept_iff (unmarshal : Bytes → Option DeadLetterEntry) (maxSize : Int)
    (producer : Option (DeadLetterEntry → Option String)) (dir : String) (ops : List Op)
    (distinct : (((queue unmarshal).run (newDLQ maxSize producer dir) ops).2.filterMap Event.accepted?).Nodup) :
    Kept ((queue unmarshal).run (newDLQ maxSize producer dir) ops) ↔
      (queue unmarshal).Throughout Careful (newDLQ maxSize producer dir) ops := by
  have start : Safe (newDLQ maxSize producer dir) := by simp [Safe, entries_newDLQ]
  obtain ⟨lost, balanced, careful⟩ :=
    run_balanced (queue unmarshal) ids Event.accepted? Event.departed? (handle_moves unmarshal) start ops
  have empty : ids (newDLQ maxSize producer dir) = [] := by simp [ids, entries_newDLQ]
  rw [empty] at balanced
  rw [← careful, ← balanced.accounted_iff distinct]
  simp only [Kept, mem_acceptedIds, mem_filterMap]

end

def unavailable (_ : DeadLetterEntry) : Replayed := ⟨[], .error "service unavailable"⟩

/-- A queue for two entries: both fail and are sent again, then the older one has to go. -/
theorem kept_requeued :
    let ops : List Op := [.setReplayFn (some unavailable), .send { id := "a" }, .send { id := "b" },
      .replayAll, .send { id := "c" }]
    let ran := (queue fun _ => none).run (newDLQ 2 none "") ops
    Kept ran ∧ ids ran.1 = ["b", "c"] ∧
      ran.2 = [.accepted "a", .accepted "b", .replayed "a" (.error "service unavailable"),
        .replayed "b" (.error "service unavailable"), .evicted "a", .accepted "c"] := by
  refine ⟨(kept_iff _ _ _ _ _ (by decide +kernel)).mpr ?_, by decide +kernel, by decide +kernel⟩
  refine ⟨trivial, trivial, trivial, fun _ => ?_, trivial, trivial⟩
  exact Option.some_ne_none unavailable

/-- An entry is lost if `Replay` fails or panics, and without a replay function. -/
theorem replay_drops :
    let run (ops : List Op) := (queue fun _ => none).run (newDLQ 100 none "") ops
    let a : DeadLetterEntry := { id := "a" }
    ¬ Kept (run [.setReplayFn (some unavailable), .send a, .replay "a"]) ∧
      ¬ Kept (run [.setReplayFn (some fun _ => ⟨[], .panic "nil map"⟩), .send a, .replay "a"]) ∧
      ¬ Kept (run [.send a, .replay "a"]) ∧
      ¬ Kept (run [.send a, .replayAll]) := by
  refine ⟨?_, ?_, ?_, ?_⟩ <;> intro kept <;>
    exact absurd (kept "a" (by decide +kernel)) (by decide +kernel)

end FlowRulZ.DeadLetters
