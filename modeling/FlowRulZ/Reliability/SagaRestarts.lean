import FlowRulZ.Lib.Paths
import FlowRulZ.Reliability.Saga

/-! # Saga steps across restarts

A tracker keeps the steps of all executions in memory, and those of each execution in a file.
A restart builds the memory from the files of the directory.  `Compensate` empties the memory
and leaves the file, so that steps which are compensated come back.
-/

namespace FlowRulZ.Saga

open List Function

open Node (SagaStep)
open SagaTracker (compensationOf)

/-- The memory of a tracker and its files. A step may carry more than its data, so that steps with the same data can be
told apart. -/
structure Store (α : Type) where
  steps : String → List α := fun _ => []
  files : List String → Option (List α) := fun _ => none

inductive Request (α : Type) where
  | registerStep (execID : String) (step : α)
  | compensate (execID : String)
  | clear (execID : String)
  | restart
  deriving Repr, DecidableEq

def Request.map {α β : Type} (f : α → β) : Request α → Request β
  | .registerStep execID step => .registerStep execID (f step)
  | .compensate execID => .compensate execID
  | .clear execID => .clear execID
  | .restart => .restart

def fileName (execID : String) : String := execID ++ "-saga.json"

def stepPath (dir execID : String) : List String := Paths.join dir (fileName execID)

namespace Store

variable {α β : Type} (dir : String) (data : α → SagaStep)

def persistLocked (s : Store α) (execID : String) : Store α :=
  if dir = "" then s
  else { s with files := Function.update s.files (stepPath dir execID) (some (s.steps execID)) }

def registerStep (s : Store α) (execID : String) (step : α) : Store α :=
  persistLocked dir { s with steps := Function.update s.steps execID (s.steps execID ++ [step]) } execID

def called (steps : List α) : List α := steps.reverse.filter fun x => (compensationOf (data x)).isSome

def compensate (s : Store α) (execID : String) : Store α × List α :=
  ({ s with steps := Function.update s.steps execID [] }, called data (s.steps execID))

def clear (s : Store α) (execID : String) : Store α :=
  let s := { s with steps := Function.update s.steps execID [] }
  if dir = "" then s else { s with files := Function.update s.files (stepPath dir execID) none }

/-- `load` into an empty map: what is in a file of the directory belongs to the execution that the
file is named after. -/
def load (s : Store α) : Store α :=
  { s with steps := fun execID =>
      if dir = "" then [] else (s.files (Paths.ofDir dir ++ [fileName execID])).getD [] }

/-- The tracker of a directory, with the steps that it calls the compensators of. -/
def tracker : Component (Store α) (Request α) α where
  handle s
    | .registerStep execID step => (registerStep dir s execID step, [])
    | .compensate execID => compensate data s execID
    | .clear execID => (clear dir s execID, [])
    | .restart => (load dir s, [])

/-! ## Steps and their data -/

def map (f : α → β) (s : Store α) : Store β where
  steps := List.map f ∘ s.steps
  files := Option.map (List.map f) ∘ s.files

theorem map_handle {data' : β → SagaStep} (f : α → β) (same : ∀ x, data' (f x) = data x) (s : Store α) (r : Request α) :
    (tracker dir data').handle (map f s) (r.map f) =
      (map f ((tracker dir data).handle s r).1, ((tracker dir data).handle s r).2.map f) := by
  cases r with
  | registerStep execID step =>
    simp only [Request.map, tracker, registerStep, persistLocked]
    split <;> simp [map, comp_update]
  | compensate execID =>
    have filtered : called data' ((s.steps execID).map f) = (called data (s.steps execID)).map f := by
      simp [called, ← map_reverse, filter_map, comp_def, same]
    simp [Request.map, tracker, compensate, filtered, map, comp_update]
  | clear execID =>
    simp only [Request.map, tracker, clear]
    split <;> simp [map, comp_update]
  | restart =>
    have loaded (file : Option (List α)) : (file.map (List.map f)).getD [] = (file.getD []).map f := by
      cases file <;> rfl
    simp only [Request.map, tracker, load, map]
    split <;> simp [comp_def, loaded]

theorem map_run (data' : β → SagaStep) (f : α → β) (same : ∀ x, data' (f x) = data x) (s : Store α)
    (rs : List (Request α)) :
    (tracker dir data').run (map f s) (rs.map (Request.map f)) =
      (map f ((tracker dir data).run s rs).1, ((tracker dir data).run s rs).2.map f) := by
  induction rs generalizing s with
  | nil => rfl
  | cons r rs ih => simp [Component.run_cons, map_handle dir data f same, ih]

end Store

/-- Each step with the number of the request that registers it. -/
def numbered : Nat → List (Request SagaStep) → List (Request (Nat × SagaStep))
  | _, [] => []
  | n, r :: rs => r.map (n, ·) :: numbered (n + 1) rs

theorem map_numbered (n : Nat) (rs : List (Request SagaStep)) : (numbered n rs).map (Request.map Prod.snd) = rs := by
  induction rs generalizing n with
  | nil => rfl
  | cons r rs ih =>
    rw [numbered, map_cons, ih]
    cases r <;> rfl

/-! ## Steps that come back -/

def Request.execID {α : Type} : Request α → Option String
  | .registerStep execID _ => some execID
  | .compensate execID => some execID
  | .clear execID => some execID
  | .restart => none

section

variable {α : Type} (dir : String) (data : α → SagaStep)

/-- Compensators are called, the file is neither written nor removed before a restart, and the
execution is compensated again before it is cleared. -/
def Reawakens (rs : List (Request α)) : Prop :=
  ∃ (before : List (Request α)) (execID : String) (between later rest : List (Request α)),
    rs = before ++ .compensate execID :: (between ++ .restart :: (later ++ .compensate execID :: rest)) ∧
    ((Store.tracker dir data).handle ((Store.tracker dir data).after {} before) (.compensate execID)).2 ≠ [] ∧
    (∀ r ∈ between, r.execID = some execID → r = .compensate execID) ∧
    .clear execID ∉ later

/-- What a request leaves of the steps of an execution that are neither compensated nor cleared. -/
def leaves (execID : String) (steps : List α) : Request α → List α
  | .registerStep own step => if own = execID then steps ++ [step] else steps
  | .compensate own => if own = execID then [] else steps
  | .clear own => if own = execID then [] else steps
  | .restart => steps

/-- The steps of an execution that are neither compensated nor cleared. -/
def pending (execID : String) (rs : List (Request α)) : List α := rs.foldl (leaves execID) []

end

def Request.step {α : Type} : Request α → Option α
  | .registerStep _ step => some step
  | _ => none

def Told {α : Type} (rs : List (Request α)) : Prop :=
  rs.Pairwise fun r later => ∀ x, r.step = some x → later.step ≠ some x

/-! ## Executions with plain names -/

/-- The execution that a request is about has its file in the directory. -/
def Request.Plain {α : Type} (r : Request α) : Prop := ∀ execID, r.execID = some execID → '/' ∉ execID.toList

variable {execID : String}

theorem fileName_plain (plain : '/' ∉ execID.toList) : Paths.Plain (fileName execID) := by
  have long : (fileName execID).length ≥ 10 := by
    rw [fileName, String.length_append]
    exact Nat.le_add_left ..
  have single : '/' ∉ (fileName execID).toList := by
    rw [fileName, String.toList_append, mem_append]
    rintro (here | there)
    · exact plain here
    · revert there
      decide
  refine ⟨single, ?_, ?_, ?_⟩
  all_goals
    intro same
    rw [same] at long
    revert long
    decide

theorem stepPath_injective {dir execID execID' : String} (plain : '/' ∉ execID.toList)
    (plain' : '/' ∉ execID'.toList) (same : stepPath dir execID = stepPath dir execID') : execID = execID' := by
  have names := Paths.join_injective (fileName_plain plain) (fileName_plain plain') same
  apply String.toList_injective
  have chars := congrArg String.toList names
  simpa [fileName, String.toList_append] using chars

namespace Store

variable {α : Type} {dir : String} {data : α → SagaStep} {s : Store α} {execID : String} {x : α}

def affect (execID : String) : Request α → List α × Option (List α) → List α × Option (List α)
  | .registerStep own step, (steps, file) =>
    if own = execID then (steps ++ [step], some (steps ++ [step])) else (steps, file)
  | .compensate own, (steps, file) => if own = execID then ([], file) else (steps, file)
  | .clear own, (steps, file) => if own = execID then ([], none) else (steps, file)
  | .restart, (_, file) => (file.getD [], file)

/-- The steps of an execution, and what is in its file. -/
def view (dir execID : String) (s : Store α) : List α × Option (List α) :=
  (s.steps execID, s.files (stepPath dir execID))

variable (data) in
theorem view_handle (given : dir ≠ "") (plain : '/' ∉ execID.toList) {r : Request α} (plain_request : r.Plain) :
    view dir execID ((tracker dir data).handle s r).1 = affect execID r (view dir execID s) := by
  have apart (own : String) (other : own ≠ execID) (named : '/' ∉ own.toList) :
      stepPath dir execID ≠ stepPath dir own :=
    fun same => other (stepPath_injective plain named same).symm
  cases r with
  | registerStep own step =>
    by_cases same : own = execID
    · subst same
      simp [view, affect, tracker, registerStep, persistLocked, given]
    · have := apart own same (plain_request own rfl)
      simp [view, affect, tracker, registerStep, persistLocked, given, same, Ne.symm same, this]
  | compensate own =>
    by_cases same : own = execID
    · subst same
      simp [view, affect, tracker, compensate]
    · simp [view, affect, tracker, compensate, same, Ne.symm same]
  | clear own =>
    by_cases same : own = execID
    · subst same
      simp [view, affect, tracker, clear, given]
    · have := apart own same (plain_request own rfl)
      simp [view, affect, tracker, clear, given, same, Ne.symm same, this]
  | restart => simp [view, affect, tracker, load, given, stepPath, Paths.join_plain (fileName_plain plain)]

/-- What some requests do to the steps of an execution and its file. -/
def affected (execID : String) (v : List α × Option (List α)) (rs : List (Request α)) : List α × Option (List α) :=
  rs.foldl (fun v r => affect execID r v) v

theorem view_after {rs : List (Request α)} (given : dir ≠ "") (plain : '/' ∉ execID.toList)
    (plains : ∀ r ∈ rs, r.Plain) :
    view dir execID ((tracker dir data).after s rs) = affected execID (view dir execID s) rs := by
  induction rs generalizing s with
  | nil => rfl
  | cons r rs ih =>
    rw [forall_mem_cons] at plains
    rw [affected, foldl_cons, ← view_handle data given plain plains.1]
    exact ih plains.2

/-! ## One step of one execution -/

/-- Nothing is in memory, or the file is up to date. -/
def Agrees (v : List α × Option (List α)) : Prop := v.1 = [] ∨ v.2 = some v.1

section

variable {v : List α × Option (List α)} {rs : List (Request α)}

theorem agrees_affect (r : Request α) (agrees : Agrees v) : Agrees (affect execID r v) := by
  obtain ⟨steps, file⟩ := v
  cases r with
  | registerStep | compensate | clear => grind [affect, Agrees]
  | restart => cases file <;> simp [Agrees, affect]

theorem agrees_affected (rs : List (Request α)) (agrees : Agrees v) : Agrees (affected execID v rs) := by
  induction rs generalizing v with
  | nil => exact agrees
  | cons r rs ih => exact ih (agrees_affect r agrees)

section

variable (once : ∀ r ∈ rs, r ≠ .registerStep execID x)
include once

theorem gone_affected (unknown : x ∉ v.1) (unfiled : x ∉ v.2.getD []) :
    x ∉ (affected execID v rs).1 ∧ x ∉ (affected execID v rs).2.getD [] := by
  induction rs generalizing v with
  | nil => exact ⟨unknown, unfiled⟩
  | cons r rs ih =>
    rw [forall_mem_cons] at once
    apply ih once.2
    all_goals cases r <;> grind [affect]

theorem cleared_affected (cleared : .clear execID ∈ rs) : x ∉ (affected execID v rs).1 := by
  obtain ⟨before, later, rfl⟩ := append_of_mem cleared
  rw [affected, foldl_append]
  have later_once : ∀ r ∈ later, r ≠ .registerStep execID x := fun r member => once r (by simp [member])
  exact (gone_affected later_once (by simp [affect]) (by simp [affect])).1

theorem restart_of_known (unknown : x ∉ v.1) (back : x ∈ (affected execID v rs).1) :
    ∃ between later : List (Request α), rs = between ++ .restart :: later ∧
      (∀ r ∈ between, r.execID = some execID → r = .compensate execID) ∧ .clear execID ∉ later := by
  induction rs generalizing v with
  | nil => exact absurd back unknown
  | cons r rs ih =>
    rw [forall_mem_cons] at once
    have lost (unknown : x ∉ (affect execID r v).1) (unfiled : x ∉ (affect execID r v).2.getD []) : False :=
      (gone_affected once.2 unknown unfiled).1 back
    by_cases restarts : r = .restart
    · subst restarts
      exact ⟨[], rs, rfl, nofun, fun cleared => cleared_affected once.2 cleared back⟩
    · have still : x ∉ (affect execID r v).1 := by
        cases r <;> grind [affect]
      obtain ⟨between, later, rfl, untouched, uncleared⟩ := ih once.2 still back
      refine ⟨r :: between, later, rfl, ?_, uncleared⟩
      rw [forall_mem_cons]
      refine ⟨?_, untouched⟩
      -- Registering another step, or clearing, takes it out of the file.
      intro own
      cases r with
      | compensate other => exact congrArg Request.compensate (Option.some.inj own)
      | registerStep other step =>
        cases own
        exact (lost still (by grind [affect])).elim
      | clear other =>
        cases own
        exact (lost still (by grind [affect])).elim
      | restart => cases own

end

theorem file_affected (untouched : ∀ r ∈ rs, r.execID = some execID → r = .compensate execID) :
    (affected execID v rs).2 = v.2 := by
  refine List.foldlRecOn (b := v) (motive := (·.2 = v.2)) _ _ rfl ?_
  intro v' same r there
  cases r <;> grind [affect, Request.execID]

theorem known_restart (agrees : Agrees v) (known : x ∈ v.1)
    (untouched : ∀ r ∈ rs, r.execID = some execID → r = .compensate execID) :
    x ∈ (affected execID v (Request.compensate execID :: rs ++ [Request.restart])).1 := by
  have file : (affected execID v (.compensate execID :: rs)).2 = v.2 :=
    file_affected (forall_mem_cons.mpr ⟨fun _ => rfl, untouched⟩)
  have filed : v.2 = some v.1 := by
    rcases agrees with none | same
    · simp [none] at known
    · exact same
  rw [affected, foldl_append]
  change x ∈ (affected execID v (.compensate execID :: rs)).2.getD []
  rw [file, filed]
  exact known

/-- A step that is known is compensated before it is cleared. -/
theorem known_affected (agrees : Agrees v) (known : x ∈ v.1) (uncleared : .clear execID ∉ rs)
    (rest : List (Request α)) :
    ∃ before later, rs ++ .compensate execID :: rest = before ++ .compensate execID :: later ∧
      x ∈ (affected execID v before).1 := by
  induction rs generalizing v with
  | nil => exact ⟨[], rest, rfl, known⟩
  | cons r rs ih =>
    by_cases compensates : r = .compensate execID
    · exact ⟨[], _, by rw [compensates]; rfl, known⟩
    · have still : x ∈ (affect execID r v).1 := by
        cases r <;> grind [affect, Agrees]
      obtain ⟨before, later, split, there⟩ :=
        ih (agrees_affect r agrees) still fun cleared => uncleared (mem_cons_of_mem _ cleared)
      exact ⟨r :: before, later, by rw [cons_append, split]; rfl, there⟩

/-- Some steps are known, in order, and are in the file if there are any. -/
def Keeps (steps : List α) (v : List α × Option (List α)) : Prop :=
  steps <:+ v.1 ∧ (steps = [] ∨ v.2 = some v.1)

theorem keeps_affect {steps : List α} (r : Request α) (keeps : Keeps steps v) :
    Keeps (leaves execID steps r) (affect execID r v) := by
  obtain ⟨known, file⟩ := v
  cases r with
  | registerStep own step =>
    simp only [leaves, affect]
    split
    · obtain ⟨front, same⟩ := keeps.1
      refine ⟨⟨front, ?_⟩, .inr rfl⟩
      rw [← append_assoc, same]
    · exact keeps
  | compensate own | clear own =>
    simp only [leaves, affect]
    split
    · exact ⟨nil_suffix, .inl rfl⟩
    · exact keeps
  | restart =>
    obtain ⟨suffix, none | filed⟩ := keeps
    · rw [none]
      exact ⟨nil_suffix, .inl rfl⟩
    · have same : file = some known := filed
      subst same
      exact ⟨suffix, .inr rfl⟩

theorem keeps_affected (execID : String) {steps : List α} (rs : List (Request α)) (keeps : Keeps steps v) :
    Keeps (rs.foldl (leaves execID) steps) (affected execID v rs) := by
  induction rs generalizing v steps with
  | nil => exact keeps
  | cons r rs ih => exact ih (keeps_affect r keeps)

theorem registered_of_known (known : x ∈ (affected execID ([], none) rs).1) : .registerStep execID x ∈ rs := by
  by_contra never
  have once : ∀ r ∈ rs, r ≠ .registerStep execID x := by
    intro r member same
    exact never (same ▸ member)
  exact (gone_affected once (by simp) (by simp)).1 known

theorem nodup_affected (execID : String) (told : Told rs) :
    (affected execID ([], none) rs).1.Nodup ∧ ((affected execID ([], none) rs).2.getD []).Nodup := by
  induction rs using List.reverseRecOn with
  | nil => simp [affected]
  | append_singleton rs r ih =>
    obtain ⟨earlier, -, apart⟩ := pairwise_append.mp told
    have new (step : α) (registers : r = .registerStep execID step) : step ∉ (affected execID ([], none) rs).1 := by
      intro known
      exact apart _ (registered_of_known known) r (by simp) step rfl (by rw [registers]; rfl)
    have nodup := ih earlier
    have last : affected execID ([], none) (rs ++ [r]) = affect execID r (affected execID ([], none) rs) := by
      simp [affected]
    rw [last]
    revert nodup new
    intro new nodup
    cases r <;> grind [affect]

end

section

variable {rs : List (Request α)}

theorem once_of_told {before later : List (Request α)} (told : Told (before ++ later))
    (registered : .registerStep execID x ∈ before) : ∀ r ∈ later, r ≠ .registerStep execID x := by
  rintro r member rfl
  exact (pairwise_append.mp told).2.2 _ registered _ member x rfl rfl

theorem execID_of_told {execID' : String} (told : Told rs) (first : .registerStep execID x ∈ rs)
    (second : .registerStep execID' x ∈ rs) : execID = execID' := by
  by_contra other
  have symmetric : Std.Symm fun r later : Request α => ∀ x, r.step = some x → later.step ≠ some x :=
    ⟨fun r later apart x own same => apart x same own⟩
  exact told.forall first second (by simpa using other) x rfl rfl

variable {r : Request α}

theorem mem_handle : x ∈ ((tracker dir data).handle s r).2 ↔
    ∃ execID, r = .compensate execID ∧ x ∈ s.steps execID ∧ (compensationOf (data x)).isSome := by
  cases r <;> simp [tracker, compensate, called]

variable (given : dir ≠ "") (plains : ∀ r ∈ rs, r.Plain) (told : Told rs)

include given plains

theorem steps_after (plain : '/' ∉ execID.toList) :
    ((tracker dir data).after {} rs).steps execID = (affected execID ([], none) rs).1 :=
  congrArg Prod.fst (view_after given plain plains)

theorem handle_nodup (told : Told rs) (plain : r.Plain) :
    ((tracker dir data).handle ((tracker dir data).after {} rs) r).2.Nodup := by
  cases r with
  | registerStep | clear | restart => exact nodup_nil
  | compensate execID =>
    have nodup : (((tracker dir data).after {} rs).steps execID).Nodup := by
      rw [steps_after given plains (plain execID rfl)]
      exact (nodup_affected execID told).1
    exact (nodup_reverse.mpr nodup).filter _

theorem mem_compensated {before later : List (Request α)} (split : rs = before ++ r :: later) :
    x ∈ ((tracker dir data).handle ((tracker dir data).after {} before) r).2 ↔
      ∃ execID, r = .compensate execID ∧ x ∈ (affected execID ([], none) before).1 ∧
        (compensationOf (data x)).isSome := by
  rw [mem_handle]
  refine exists_congr fun execID => and_congr_right fun own => ?_
  rw [steps_after given (fun r member => plains r (by simp [split, member]))]
  exact plains r (by simp [split]) execID (by rw [own]; rfl)

theorem mem_later {before later : List (Request α)} (split : rs = before ++ r :: later) :
    x ∈ ((tracker dir data).run ((tracker dir data).handle ((tracker dir data).after {} before) r).1 later).2 ↔
      ∃ (mid : List (Request α)) (execID : String) (rest : List (Request α)),
        later = mid ++ .compensate execID :: rest ∧ x ∈ (affected execID ([], none) (before ++ r :: mid)).1 ∧
          (compensationOf (data x)).isSome := by
  have state (mid : List (Request α)) : (tracker dir data).after
      ((tracker dir data).handle ((tracker dir data).after {} before) r).1 mid =
        (tracker dir data).after {} (before ++ r :: mid) := by
    rw [Component.after_append]
    rfl
  have whole (mid rest : List (Request α)) : before ++ r :: (mid ++ rest) = before ++ r :: mid ++ rest := by simp
  simp only [Component.mem_run, state]
  constructor
  · rintro ⟨mid, e, rest, rfl, here⟩
    obtain ⟨execID, rfl, called⟩ := (mem_compensated given plains (split.trans (whole mid _))).mp here
    exact ⟨mid, execID, rest, rfl, called⟩
  · rintro ⟨mid, execID, rest, rfl, called⟩
    exact ⟨mid, _, rest, rfl, (mem_compensated given plains (split.trans (whole mid _))).mpr ⟨execID, rfl, called⟩⟩

/-- A compensator is called twice exactly if steps come back. -/
theorem nodup_iff (told : Told rs) : ((tracker dir data).run {} rs).2.Nodup ↔ ¬ Reawakens dir data rs := by
  rw [Component.nodup_run]
  · constructor
    · intro apart
      rintro ⟨before, execID, between, later, rest, split, calls, untouched, uncleared⟩
      obtain ⟨x, here⟩ := exists_mem_of_ne_nil _ calls
      apply apart before _ _ split x here
      obtain ⟨own, same, known, compensable⟩ := (mem_compensated given plains split).mp here
      cases same
      have agrees : Agrees (affected execID ([], none) before) := agrees_affected before (.inl rfl)
      obtain ⟨mid, tail, again, there⟩ := known_affected (agrees_affected _ agrees)
        (known_restart agrees known untouched) uncleared rest
      rw [mem_later given plains split]
      refine ⟨between ++ .restart :: mid, execID, tail, ?_, ?_, compensable⟩
      · rw [again, append_assoc]
        rfl
      · simpa [affected] using there
    · intro never before r later split x here again
      apply never
      obtain ⟨execID, rfl, known, compensable⟩ := (mem_compensated given plains split).mp here
      obtain ⟨mid, own, rest, rfl, back, -⟩ := (mem_later given plains split).mp again
      have first := registered_of_known known
      have second := registered_of_known back
      have same : execID = own := by
        refine execID_of_told (x := x) told ?_ ?_ <;> rw [split] <;> grind
      subst same
      have once := once_of_told (split ▸ told) first
      have back' : x ∈ (affected execID
          (affect execID (.compensate execID) (affected execID ([], none) before)) mid).1 := by
        simpa [affected] using back
      obtain ⟨between, later, rfl, untouched, uncleared⟩ :=
        restart_of_known (fun r member => once r (by simp [member])) (by simp [affect]) back'
      refine ⟨before, execID, between, later, rest, ?_, ne_nil_of_mem here, untouched, uncleared⟩
      rw [split, append_assoc]
      rfl
  · rintro before r rest rfl
    rw [forall_mem_append, forall_mem_cons] at plains
    exact handle_nodup given plains.1 (pairwise_append.mp told).1 plains.2.1

/-- No compensator is called for a step whose execution has been cleared. -/
theorem not_called_after_clear (told : Told rs) {before later : List (Request α)}
    (split : rs = before ++ .clear execID :: later) (registered : .registerStep execID x ∈ before) :
    x ∉ ((tracker dir data).run ((tracker dir data).after {} (before ++ [Request.clear execID])) later).2 := by
  rw [Component.after_concat, mem_later given plains split]
  rintro ⟨mid, own, rest, rfl, known, -⟩
  have same : own = execID := by
    have second := registered_of_known known
    refine execID_of_told (x := x) told ?_ ?_ <;> rw [split] <;> grind
  subst same
  have once := once_of_told (split ▸ told) registered
  rw [affected, foldl_append] at known
  exact cleared_affected (fun r member => once r (by grind)) mem_cons_self known

end

end Store

/-! ## Numbered steps -/

theorem le_of_numbered {n : Nat} {rs : List (Request SagaStep)} {x : Nat × SagaStep} :
    ∀ r ∈ numbered n rs, r.step = some x → n ≤ x.1 := by
  induction rs generalizing n with
  | nil => nofun
  | cons r rs ih =>
    rw [numbered, forall_mem_cons]
    constructor
    · cases r <;> simp [Request.map, Request.step, Prod.ext_iff]
      omega
    · intro r member own
      exact Nat.le_of_succ_le (ih r member own)

theorem told_numbered (n : Nat) (rs : List (Request SagaStep)) : Told (numbered n rs) := by
  induction rs generalizing n with
  | nil => exact List.Pairwise.nil
  | cons r rs ih =>
    refine List.Pairwise.cons ?_ (ih (n + 1))
    intro later member x own same
    have above := le_of_numbered later member same
    cases r <;> simp [Request.map, Request.step, Prod.ext_iff] at own
    omega

theorem plain_numbered {n : Nat} {rs : List (Request SagaStep)} (plain : ∀ r ∈ rs, r.Plain) :
    ∀ r ∈ numbered n rs, r.Plain := by
  induction rs generalizing n with
  | nil => nofun
  | cons r rs ih =>
    rw [forall_mem_cons] at plain
    rw [numbered, forall_mem_cons]
    refine ⟨?_, ih plain.2⟩
    cases r <;> exact plain.1

theorem pending_other {α : Type} {rs : List (Request α)} (other : ∀ r ∈ rs, r.execID ≠ some execID) :
    pending execID rs = [] := by
  refine List.foldlRecOn (motive := (· = [])) _ _ rfl ?_
  rintro _ rfl r there
  have := other r there
  cases r <;> simp_all [leaves, Request.execID]

/-- A compensator is called at most once for each step unless steps that were compensated come
back, never after the execution is cleared, and what is pending is known after a restart. -/
theorem compensated_once {dir : String} (given : dir ≠ "") {requests : List (Request SagaStep)}
    (plain : ∀ r ∈ requests, r.Plain) :
    let tracker := Store.tracker dir (Prod.snd (α := Nat))
    let rs := numbered 0 requests
    (tracker.run {} rs).2.map Prod.snd = ((Store.tracker dir id).run {} requests).2 ∧
      ((tracker.run {} rs).2.Nodup ↔ ¬ Reawakens dir Prod.snd rs) ∧
      (∀ (before : List (Request (Nat × SagaStep))) execID later x, rs = before ++ .clear execID :: later →
        .registerStep execID x ∈ before →
          x ∉ (tracker.run (tracker.after {} (before ++ [Request.clear execID])) later).2) ∧
      ∀ (before later : List (Request (Nat × SagaStep))) execID, rs = before ++ .restart :: later →
        pending execID before <:+ (tracker.after {} (before ++ [Request.restart])).steps execID := by
  have plains := plain_numbered (n := 0) plain
  have told := told_numbered 0 requests
  refine ⟨?_, Store.nodup_iff given plains told, ?_, ?_⟩
  · have erased := Store.map_run dir Prod.snd id Prod.snd (fun _ => rfl) {} (numbered 0 requests)
    rw [map_numbered] at erased
    exact (congrArg Prod.snd erased).symm
  · intro before execID later x split registered
    exact Store.not_called_after_clear given plains told split registered
  · intro before later execID split
    have plains' : ∀ r ∈ before ++ [.restart], r.Plain := by
      intro r member
      apply plains
      grind
    by_cases own : '/' ∈ execID.toList
    · have other : ∀ r ∈ before, r.execID ≠ some execID :=
        fun r member about => plains' r (by simp [member]) execID about own
      rw [pending_other other]
      exact nil_suffix
    · rw [Store.steps_after given plains' own]
      have keeps := Store.keeps_affected execID (before ++ [.restart])
        (⟨suffix_rfl, .inl rfl⟩ : Store.Keeps [] (([], none) : List (Nat × SagaStep) × _))
      rw [foldl_append] at keeps
      exact keeps.1

def charged : SagaStep := ⟨"payment", "charge", [], "payment", "refund"⟩

theorem compensated_once_restarted : [(0, charged)] <:+ ((Store.tracker "sagas" Prod.snd).after {}
      (numbered 0 [.registerStep "e" charged, .restart])).steps "e" := by
  have plain : ∀ r ∈ [Request.registerStep "e" charged, .restart, .compensate "e"], r.Plain := by
    simp [Request.Plain, Request.execID]
  exact (compensated_once (by decide : "sagas" ≠ "") plain).2.2.2
    [.registerStep "e" (0, charged)] [.compensate "e"] "e" rfl

/-- After a restart the refund is made once more; and a step of an execution whose name has two
elements is lost. -/
theorem refunded_twice : ((Store.tracker "sagas" Prod.snd).run {}
      (numbered 0 [.registerStep "e" charged, .compensate "e", .restart, .compensate "e"])).2 =
        [(0, charged), (0, charged)] ∧
    ((Store.tracker "sagas" Prod.snd).after {}
      (numbered 0 [.registerStep "a/b" charged, .restart])).steps "a/b" = [] := by
  decide

end FlowRulZ.Saga
