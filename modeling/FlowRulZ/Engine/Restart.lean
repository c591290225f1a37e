import FlowRulZ.Engine.Versions
import Mathlib.Data.List.InsertIdx

/-! # Restarts

A new process builds the rules from the file.  The file is what the last operation that
saves has left, and `Drain` is none; a rule without an active version gets one when it is
loaded.
-/

namespace FlowRulZ.Engine

open List

/-- The versions of a rule, as far as they are written. -/
def listed (e : Engine) (id : String) : Option (List (Option VersionPersistence)) :=
  (e.rules.lookup id).map fun r => r.versions.map (Option.map (·.stored))

def active (e : Engine) (id : String) : Option (VersionPersistence × Bytes) :=
  (activePlan e id).map fun vp => (vp.stored, vp.plan)

/-- A new process has the same rules, versions and active plans. -/
def Restored (compile : Compile) (e : Engine) : Prop :=
  ∀ id, listed (e.reload compile) id = listed e id ∧ active (e.reload compile) id = active e id

def Accepts (compile : Compile) (id dsl : String) : Prop := ∃ result, compile dsl id = .ok result

def AcceptsFile (compile : Compile) (file : RulesFile) : Prop :=
  ∀ rules, file = some rules → ∀ rp ∈ rules, ∀ v ∈ rp.versions, Accepts compile rp.id v.dsl

/-- The rule has an active version, whose plan is what the compiler makes of its text. -/
def Current (compile : Compile) (id : String) (r : Rule) : Prop :=
  ∃ vp, r.activePlan = some vp ∧ ∃ complexity, compile vp.dsl id = .ok ⟨vp.plan, complexity⟩

/-- Whether a version has been drained after the last operation that saved. -/
def settle (unsaved : Bool) : Option Reply → Bool
  | some (.drained (_ :: _)) => true
  | some (.deployed ..) | some .added | some .promoted | some (.removed _) => false
  | _ => unsaved

/-- Whether a version has been drained after the last reply to an operation that saved. -/
def unsaved (replies : List (Option Reply)) : Bool := replies.foldl settle false

/-- An operation of the process itself, which can write the file. -/
def Op.Saves : Op → Prop
  | .reload _ => False
  | op => op.writes = true

section

variable (compile : Compile)

theorem loadVersions_length (id : String) (versions : List VersionPersistence) :
    ∀ group, (loadVersions compile id group versions).length = versions.length := by
  induction versions with
  | nil => exact fun group => rfl
  | cons v versions ih => exact fun group => congrArg (· + 1) (ih (group + 1))

theorem loadVersions_getElem? (id : String) (versions : List VersionPersistence) :
    ∀ group i, (loadVersions compile id group versions)[i]? =
      versions[i]?.map (loadVersion compile id (group + i)) := by
  induction versions with
  | nil => simp [loadVersions]
  | cons v versions ih =>
    intro group i
    cases i with
    | zero => rfl
    | succ i =>
      simp only [loadVersions, getElem?_cons_succ, ih]
      rw [Nat.add_right_comm, Nat.add_assoc]

variable {id : String}

theorem loadVersion_stored {group : Nat} {v : VersionPersistence} {result : CompileResult}
    (compiled : compile v.dsl id = .ok result) :
    loadVersion compile id group v = some ⟨result.plan, v.dsl, v.version, v.lane, group⟩ := by
  simp only [loadVersion, compiled]

theorem loadVersions_stored (versions : List VersionPersistence) (accepted : ∀ v ∈ versions, Accepts compile id v.dsl) :
    ∀ group, ∃ vps : List VersionedPlan,
      loadVersions compile id group versions = vps.map some ∧ vps.map (·.stored) = versions := by
  induction versions with
  | nil => exact fun group => ⟨[], rfl, rfl⟩
  | cons v versions ih =>
    intro group
    rw [forall_mem_cons] at accepted
    obtain ⟨result, compiled⟩ := accepted.1
    obtain ⟨vps, rest, stored⟩ := ih accepted.2 (group + 1)
    refine ⟨⟨result.plan, v.dsl, v.version, v.lane, group⟩ :: vps, ?_, congrArg (v :: ·) stored⟩
    rw [loadVersions, rest, loadVersion_stored compile compiled, map_cons]

theorem load_lookup_other (file : List RulePersistence) (other : id ∉ file.map (·.id)) :
    ∀ e : Engine, (file.foldl (loadRule compile) e).rules.lookup id = e.rules.lookup id := by
  induction file with
  | nil => exact fun e => rfl
  | cons rp file ih =>
    intro e
    rw [map_cons, mem_cons, not_or] at other
    rw [foldl_cons, ih other.2]
    unfold loadRule
    dsimp only
    split_ifs
    · rfl
    · exact AList.lookup_insert_ne other.1

/-- The rule that a file of distinct rules loads. -/
theorem load_lookup (file : List RulePersistence) (distinct : (file.map (·.id)).Nodup) {rp : RulePersistence}
    (there : rp ∈ file) (some : rp.versions ≠ []) :
    ∀ e : Engine, ∃ group, (file.foldl (loadRule compile) e).rules.lookup rp.id =
      .some (loadedRule (loadVersions compile rp.id group rp.versions) rp.activeVersion) := by
  induction file with
  | nil => cases there
  | cons first file ih =>
    intro e
    rw [map_cons, nodup_cons] at distinct
    rcases mem_cons.mp there with rfl | later
    · refine ⟨e.allocated, ?_⟩
      rw [foldl_cons, load_lookup_other compile file distinct.1]
      unfold loadRule
      dsimp only
      rw [if_neg, AList.lookup_insert]
      rwa [loadVersions_length, length_eq_zero_iff]
    · exact ih distinct.2 later (loadRule compile e first)

end

/-! ## What is written and loaded -/

section

variable {e : Engine} {compile : Compile} {file : List RulePersistence}

variable {rules : Rules}

theorem persist_ids (persisted : persist rules = some file) : file.map (·.id) = rules.keys := by
  refine Traverse.map_mapM ?_ _ file persisted
  intro entry rp stored
  obtain ⟨vps, -, rfl⟩ := persistRule_eq_some.mp stored
  rfl

def Whole (r : Rule) : Prop := ∃ vps : List VersionedPlan, vps ≠ [] ∧ r.versions = vps.map some

theorem persist_whole (whole : EveryRule (fun _ => Whole) rules) : ∃ file, persist rules = some file := by
  rw [← Option.isSome_iff_exists, ← Option.ne_none_iff_isSome]
  intro failed
  obtain ⟨⟨id, r⟩, there, missing⟩ := (Traverse.mapM_eq_none _).mp failed
  obtain ⟨vps, -, versions⟩ := whole id r (AList.mem_lookup_iff.mpr there)
  rw [persistRule_eq_some.mpr ⟨vps, versions, rfl⟩] at missing
  cases missing

variable {id : String} {r : Rule} {vps : List VersionedPlan}

variable (compile) in
/-- Rules that were just written are loaded with the versions they were written with. -/
theorem reload_lookup (path : e.persistPath ≠ "") (saved : persist e.rules = e.file)
    (whole : EveryRule (fun _ => Whole) e.rules) (id : String) :
    e.rules.lookup id = none ∧ (e.reload compile).rules.lookup id = none ∨
      ∃ r file group, ∃ vps : List VersionedPlan, e.rules.lookup id = some r ∧ r.versions = vps.map some ∧
        e.file = some file ∧ ⟨id, vps.map (·.stored), r.activeVersion⟩ ∈ file ∧ (e.reload compile).rules.lookup id =
          some (loadedRule (loadVersions compile id group (vps.map (·.stored))) r.activeVersion) := by
  obtain ⟨file, persisted⟩ := persist_whole whole
  have ids := persist_ids persisted
  simp only [reload, new, loadRules, if_neg path, ← saved, persisted, Option.getD_some]
  cases known : e.rules.lookup id with
  | none =>
    refine .inl ⟨rfl, ?_⟩
    rw [load_lookup_other compile file (ids ▸ AList.lookup_eq_none.mp known)]
    simp
  | some r =>
    obtain ⟨vps, nonempty, versions⟩ := whole id r known
    obtain ⟨rp, there, stored⟩ := Traverse.mem_mapM persisted (AList.mem_lookup_iff.mp known)
    rw [persistRule_eq_some.mpr ⟨vps, versions, rfl⟩] at stored
    cases stored
    obtain ⟨group, loaded⟩ :=
      load_lookup compile file (ids ▸ e.rules.keys_nodup) there (by simpa using nonempty) _
    exact .inr ⟨r, file, group, vps, rfl, versions, rfl, there, loaded⟩

def count (e : Engine) (id : String) : Nat := (e.rules.lookup id).elim 0 (·.versions.length)

theorem count_reload (path : e.persistPath ≠ "") (saved : persist e.rules = e.file)
    (whole : EveryRule (fun _ => Whole) e.rules) (id : String) :
    count (e.reload compile) id = count e id := by
  unfold count
  rcases reload_lookup compile path saved whole id with
    ⟨unknown, absent⟩ | ⟨r, _, group, vps, known, versions, -, -, loaded⟩
  · rw [unknown, absent]
  · simp [known, loaded, loadedRule, loadVersions_length, versions]

/-! ## Along a history -/

/-- What holds of the rules and the file of a process, and of the versions drained but not saved. -/
structure Kept (compile : Compile) (e : Engine) (unsaved : Bool) : Prop where
  path : e.persistPath ≠ ""
  whole : EveryRule (fun _ => Whole) e.rules
  /-- No version is missing in the file. -/
  covered : ∀ id, count e id ≤ count (e.reload compile) id
  /-- The rules were just written, or just loaded. -/
  saved : unsaved = false → persist e.rules = e.file ∨ (e.reload compile).rules = e.rules
  drained : unsaved = true → ∃ id, count e id < count (e.reload compile) id

variable {e e' : Engine}

theorem Same.reload (same : Same e e') : e'.reload compile = e.reload compile := by
  rw [Engine.reload, same.persistPath, same.file, Engine.reload]

theorem Same.count (same : Same e e') (id : String) : count e' id = count e id := by
  rw [Engine.count, same.rules, Engine.count]

variable {unsaved : Bool}

theorem Kept.same (kept : Kept compile e unsaved) (same : Same e e') : Kept compile e' unsaved where
  path := same.persistPath ▸ kept.path
  whole := same.rules ▸ kept.whole
  covered id := by
    rw [same.reload, same.count]
    exact kept.covered id
  saved := by
    rw [same.reload, same.rules, same.file]
    exact kept.saved
  drained := by
    intro flag
    obtain ⟨id, fewer⟩ := kept.drained flag
    exact ⟨id, by rwa [same.reload, same.count]⟩

theorem settle_undone {reply : Option Reply} (undone : Undone reply) (unsaved : Bool) :
    settle unsaved reply = unsaved := by
  unfold Undone at undone
  split at undone
  · rfl
  · rfl
  · rfl
  · exact undone.elim

/-- An operation that saves leaves nothing unsaved. -/
theorem Committed.kept {writes : Bool} {changed : Engine} {reply : Reply} {out : Option Reply × Engine}
    (committed : Committed writes changed reply out) (written : writes = true)
    (saves : ∀ unsaved, settle unsaved (some reply) = false) (path : changed.persistPath ≠ "")
    (whole : EveryRule (fun _ => Whole) changed.rules) (unsaved : Bool) :
    Kept compile out.2 (settle unsaved out.1) := by
  have path' : out.2.persistPath ≠ "" := committed.persistPath ▸ path
  have whole' : EveryRule (fun _ => Whole) out.2.rules := committed.rules ▸ whole
  obtain ⟨file, persisted⟩ := persist_whole whole
  rcases committed.ended with ⟨-, -, failed, -⟩ | ⟨answered, ⟨empty, -⟩ | ⟨-, rules, stored, file⟩⟩
  · rw [persisted] at failed
    cases failed
  · exact absurd empty path
  · have saved : persist out.2.rules = out.2.file := by
      rw [committed.rules, file, stored, if_pos written]
    rw [answered, saves]
    exact ⟨path', whole', fun id => (count_reload path' saved whole' id).ge, fun _ => .inl saved, nofun⟩

theorem Whole.append (versions : ∃ vps : List VersionedPlan, r.versions = vps.map some)
    (vp : VersionedPlan) : Whole (r.append vp) := by
  obtain ⟨vps, same⟩ := versions
  exact ⟨vps ++ [vp], by simp, by simp [Rule.append, same]⟩

theorem Whole.replace (whole : Whole r) (i : Nat) (vp : VersionedPlan) : Whole (r.replace i vp) := by
  obtain ⟨vps, nonempty, versions⟩ := whole
  refine ⟨vps.set i vp, ?_, by simp [Rule.replace, versions, map_set]⟩
  rw [← length_pos_iff, length_set]
  exact length_pos_iff.mpr nonempty

theorem Whole.drop (whole : Whole r) (i : Nat) (left : (r.drop i).versions.length ≠ 0) : Whole (r.drop i) := by
  obtain ⟨vps, -, versions⟩ := whole
  have shorter : (r.drop i).versions = (vps.eraseIdx i).map some := by
    rw [Rule.drop, versions, eraseIdx_map]
  refine ⟨vps.eraseIdx i, ?_, shorter⟩
  rintro empty
  rw [shorter, empty] at left
  exact left rfl

theorem ruleOr_versions (whole : EveryRule (fun _ => Whole) e.rules) (id : String) (activeVersion : Int) :
    ∃ vps : List VersionedPlan, (e.ruleOr id activeVersion).versions = vps.map some := by
  refine EveryRule.ruleOr (P := fun _ r => ∃ vps : List VersionedPlan, r.versions = vps.map some) ?_ ⟨[], rfl⟩
  intro id r known
  obtain ⟨vps, -, versions⟩ := whole id r known
  exact ⟨vps, versions⟩

variable {i : Nat}

theorem count_drained (known : e.rules.lookup id = some r) (inside : i < r.versions.length) (id' : String) :
    count (e.drained id r i) id' + (if id' = id then 1 else 0) = count e id' := by
  have fewer : (r.drop i).versions.length + 1 = r.versions.length := by
    rw [Rule.drop, length_eraseIdx_of_lt inside]
    omega
  unfold count Engine.drained
  by_cases here : id' = id
  · subst here
    rw [if_pos rfl, known]
    split_ifs with last
    · simp only [AList.lookup_erase, Option.elim_none, Option.elim_some]
      omega
    · simp only [setRule, AList.lookup_insert]
      exact fewer
  · split_ifs
    · rw [AList.lookup_erase_ne here]
      rfl
    · rw [setRule, AList.lookup_insert_ne here]
      rfl

theorem Kept.drain (kept : Kept compile e unsaved)
    (known : e.rules.lookup id = some r) (inside : i < r.versions.length) :
    Kept compile (e.drained id r i) true := by
  have counted := count_drained known inside
  have file : (e.drained id r i).reload compile = e.reload compile := by
    rw [Engine.reload, drained_persistPath, drained_file, Engine.reload]
  refine ⟨drained_persistPath e id r i ▸ kept.path, ?_, ?_, fun flag => Bool.noConfusion flag, ?_⟩
  · unfold Engine.drained
    split_ifs with last
    · exact kept.whole.erase id
    · exact kept.whole.insert ((kept.whole id r known).drop i last)
  · intro id'
    rw [file]
    exact le_trans (Nat.le.intro (counted id')) (kept.covered id')
  · intro _
    refine ⟨id, ?_⟩
    rw [file]
    have removed := counted id
    rw [if_pos rfl] at removed
    have stored := kept.covered id
    omega

theorem kept_perform (before : Kept compile e unsaved) {op : Op} (saves : op.Saves) :
    Kept compile (e.perform op).2 (settle unsaved (e.perform op).1) := by
  cases performed e op with
  | rejected _ undone same | missing _ undone same =>
    rw [settle_undone undone]
    exact before.same same
  | nilPointer panicked same =>
    rw [panicked]
    exact before.same same
  | deployed _ committed | appended _ committed =>
    apply committed.kept saves (fun _ => rfl) before.path
    exact before.whole.insert (Whole.append (ruleOr_versions before.whole _ _) _)
  | replaced found committed =>
    apply committed.kept saves (fun _ => rfl) before.path
    apply before.whole.insert
    obtain ⟨vps, versions⟩ := ruleOr_versions before.whole _ (-1)
    refine Whole.replace ⟨vps, ?_, versions⟩ _ _
    rintro rfl
    rw [versions] at found
    cases found
  | @promoted _ id _ r _ _ known _ committed =>
    apply committed.kept saves (fun _ => rfl) before.path
    exact before.whole.insert (before.whole id r known)
  | drained known found reply same =>
    rw [reply]
    obtain ⟨inside, -⟩ := List.getElem?_eq_some_iff.mp (find_at found).1
    exact (before.drain known inside).same same
  | removed _ committed =>
    apply committed.kept saves (fun _ => rfl) before.path
    exact before.whole.erase _
  | reloaded => exact saves.elim

theorem kept_after (before : Kept compile e unsaved) {ops : List Op} (saves : ∀ op ∈ ops, op.Saves) :
    Kept compile (history.after e ops) ((history.run e ops).2.foldl settle unsaved) := by
  induction ops generalizing e unsaved with
  | nil => exact before
  | cons op ops ih =>
    rw [forall_mem_cons] at saves
    exact ih (kept_perform before saves.1) saves.2

/-! ## The active plan -/

theorem activePlan_at (here : r.activeVersion = i) : r.activePlan = (r.versions[i]?).join := by
  unfold Rule.activePlan
  rw [here]
  split_ifs with outside
  · rw [getElem?_eq_none (by omega)]
    rfl
  · rfl

theorem activePlan_some {vp : VersionedPlan} (active : r.activePlan = some vp) :
    ∃ i : Nat, r.activeVersion = i ∧ r.versions[i]? = some (some vp) := by
  unfold Rule.activePlan at active
  split_ifs at active with outside
  exact ⟨r.activeVersion.toNat, by omega, Option.join_eq_some_iff.mp active⟩

/-- A rule that is loaded has an active version, and the one it was written with if that is one. -/
theorem loadedRule_activeVersion {versions : List (Option VersionedPlan)} (nonempty : versions ≠ [])
    (activeVersion : Int) :
    ∃ i : Nat, i < versions.length ∧ (loadedRule versions activeVersion).activeVersion = i ∧
      (0 ≤ activeVersion → activeVersion < versions.length → activeVersion = i) := by
  have positive := length_pos_iff.mpr nonempty
  by_cases outside : activeVersion < 0 ∨ (versions.length : Int) ≤ activeVersion
  · refine ⟨versions.length - 1, by omega, ?_, by omega⟩
    rw [loadedRule]
    dsimp only
    omega
  · refine ⟨activeVersion.toNat, by omega, ?_, by omega⟩
    rw [loadedRule]
    dsimp only
    omega

theorem loaded_current {versions : List VersionPersistence} (nonempty : versions ≠ [])
    (accepted : ∀ v ∈ versions, Accepts compile id v.dsl) (group : Nat) (activeVersion : Int) :
    Current compile id (loadedRule (loadVersions compile id group versions) activeVersion) := by
  have some : loadVersions compile id group versions ≠ [] := by
    rwa [← length_pos_iff, loadVersions_length, length_pos_iff]
  obtain ⟨i, inside, here, -⟩ := loadedRule_activeVersion some activeVersion
  rw [loadVersions_length] at inside
  obtain ⟨result, compiled⟩ := accepted _ (getElem_mem inside)
  refine ⟨⟨result.plan, versions[i].dsl, versions[i].version, versions[i].lane, group + i⟩, ?_,
    result.complexity, compiled⟩
  rw [activePlan_at here, loadedRule, loadVersions_getElem?, getElem?_eq_getElem inside,
    Option.map_some, loadVersion_stored compile compiled]
  rfl

theorem loaded_active (versions : r.versions = vps.map some) (current : Current compile id r) (group : Nat) :
    ((loadedRule (loadVersions compile id group (vps.map (·.stored))) r.activeVersion).activePlan.map
        fun vp => (vp.stored, vp.plan)) = r.activePlan.map fun vp => (vp.stored, vp.plan) := by
  obtain ⟨vp, active, complexity, compiled⟩ := current
  obtain ⟨i, here, there⟩ := activePlan_some active
  have stored : vps[i]? = some vp := by
    rw [versions] at there
    simpa using there
  obtain ⟨inside, -⟩ := List.getElem?_eq_some_iff.mp stored
  have length : (loadVersions compile id group (vps.map (·.stored))).length = vps.length := by
    rw [loadVersions_length, length_map]
  have nonempty : loadVersions compile id group (vps.map (·.stored)) ≠ [] := by
    rw [← length_pos_iff]
    omega
  obtain ⟨j, -, loaded, kept⟩ := loadedRule_activeVersion nonempty r.activeVersion
  have same : i = j := by omega
  subst same
  rw [active, activePlan_at loaded, loadedRule, loadVersions_getElem?, getElem?_map, stored,
    Option.map_some, Option.map_some, loadVersion_stored compile compiled]
  rfl

/-! ## A new process -/

theorem reload_new (path : String) (file : RulesFile) :
    (new compile path file).reload compile = new compile path file := by
  obtain ⟨path', file'⟩ := reload_kept compile { persistPath := path, file }
  rw [reload] at path' file' ⊢
  rw [path', file']

theorem kept_new {path : String} {file : RulesFile} (persistent : path ≠ "")
    (accepted : AcceptsFile compile file) : Kept compile (new compile path file) false where
  path := (reload_kept compile { persistPath := path, file }).1 ▸ persistent
  whole := by
    refine everyRule_reload compile { persistPath := path, file } ?_
    intro rules stored rp listed nonempty group
    obtain ⟨vps, versions, same⟩ := loadVersions_stored compile rp.versions (accepted rules stored rp listed) group
    refine ⟨vps, ?_, versions⟩
    rintro rfl
    exact nonempty same.symm
  covered id := by rw [reload_new]
  saved _ := .inr (by rw [reload_new])
  drained := nofun

theorem reload_current (accepted : AcceptsFile compile e.file) :
    EveryRule (Current compile) (e.reload compile).rules := by
  apply everyRule_reload
  intro rules stored rp listed nonempty group
  exact loaded_current nonempty (accepted rules stored rp listed) group rp.activeVersion

theorem Restored.count (restored : Restored compile e) (id : String) : count (e.reload compile) id = count e id := by
  have same := congrArg (Option.map List.length) (restored id).1
  unfold listed at same
  unfold Engine.count
  cases before : e.rules.lookup id <;> cases after : (e.reload compile).rules.lookup id <;>
    simp_all

theorem Restored.current (restored : Restored compile e) (accepted : AcceptsFile compile e.file) :
    EveryRule (Current compile) e.rules := by
  intro id r known
  obtain ⟨listed, active⟩ := restored id
  unfold Engine.listed at listed
  unfold Engine.active Engine.activePlan at active
  cases loaded : (e.reload compile).rules.lookup id with
  | none =>
    rw [known, loaded] at listed
    cases listed
  | some r' =>
    obtain ⟨vp, active', complexity, compiled⟩ := reload_current accepted id r' loaded
    simp only [known, loaded, Option.bind_some, active'] at active
    obtain ⟨own, chosen, same⟩ := Option.map_eq_some_iff.mp active.symm
    simp only [Prod.mk.injEq, VersionedPlan.stored, VersionPersistence.mk.injEq] at same
    refine ⟨own, chosen, complexity, ?_⟩
    rw [same.1.1, same.2]
    exact compiled

/-- Rules that were just written are restored if each has an active version with its own plan. -/
theorem restored_of_saved (path : e.persistPath ≠ "") (whole : EveryRule (fun _ => Whole) e.rules)
    (accepted : AcceptsFile compile e.file) (saved : persist e.rules = e.file)
    (current : EveryRule (Current compile) e.rules) : Restored compile e := by
  intro id
  unfold listed active activePlan
  rcases reload_lookup compile path saved whole id with
    ⟨unknown, absent⟩ | ⟨r, file, group, vps, known, versions, written, there, loaded⟩
  · rw [unknown, absent]
    exact ⟨rfl, rfl⟩
  · rw [known, loaded, Option.map_some, Option.map_some]
    refine ⟨congrArg some ?_, loaded_active versions (current id r known) group⟩
    obtain ⟨vps', read, same⟩ := loadVersions_stored compile _ (accepted file written _ there) group
    rw [loadedRule, read, versions]
    simpa using congrArg (List.map some) same

end

/-- A new process has the rules of the old one if and only if no version was drained after the
last operation that saved and each rule has an active version with the plan of its text. -/
theorem restored_iff (compile : Compile) {path : String} {file : RulesFile} {ops : List Op}
    (persistent : path ≠ "") (saves : ∀ op ∈ ops, op.Saves) (accepted : AcceptsFile compile file)
    (stored : AcceptsFile compile (history.after (new compile path file) ops).file) :
    Restored compile (history.after (new compile path file) ops) ↔
      unsaved (history.run (new compile path file) ops).2 = false ∧
        ∀ id r, (history.after (new compile path file) ops).rules.lookup id = some r → Current compile id r := by
  have kept := kept_after (kept_new persistent accepted) saves
  constructor
  · intro restored
    refine ⟨?_, restored.current stored⟩
    by_contra drained
    obtain ⟨id, fewer⟩ := kept.drained (Bool.not_eq_false _ ▸ drained)
    rw [restored.count id] at fewer
    exact lt_irrefl _ fewer
  · rintro ⟨nothing, current⟩
    rcases kept.saved nothing with saved | loaded
    · exact restored_of_saved kept.path kept.whole stored saved current
    · intro id
      rw [listed, active, activePlan, loaded]
      exact ⟨rfl, rfl⟩

theorem restored_deploys : Restored textPlan (history.after (new textPlan "rules.json" none)
      [.deploy { compile := textPlan } "a" "x", .deploy { compile := textPlan } "a" "y",
        .promote { compile := textPlan } "a" 1]) := by
  have any (file : RulesFile) : AcceptsFile textPlan file :=
    fun rules _ rp _ v _ => ⟨_, rfl⟩
  refine (restored_iff textPlan (by decide) ?_ (any _) (any _)).mpr ⟨rfl, ?_⟩
  · simp [Op.Saves, Op.writes]
  · intro id r known
    have only := mem_map_of_mem (f := Sigma.fst) (AList.mem_lookup_iff.mp known)
    cases mem_singleton.mp (show id ∈ ["a"] from only)
    cases known
    exact ⟨_, rfl, 1, rfl⟩

/-- A version that is drained is back after a restart, and active again. A version that is only added is not active
before the restart, and active after it. -/
theorem drained_comes_back : ¬ Restored textPlan (history.after
        (new textPlan "rules.json" (some [⟨"a", [⟨"x", 1, .fast⟩, ⟨"y", 2, .fast⟩], 1⟩])) [.drain "a" 2]) ∧
      ¬ Restored textPlan (history.after (new textPlan "rules.json" none)
        [.addVersion { compile := textPlan } "a" "x" [120] 1]) := by
  constructor
  · intro restored
    have versions := (restored "a").1
    revert versions
    decide
  · intro restored
    have active := (restored "a").2
    revert active
    decide

end FlowRulZ.Engine
