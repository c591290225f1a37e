import FlowRulZ.Engine.Restart
import FlowRulZ.Engine.RulesLock
import Mathlib.Data.List.Perm.Basic

/-! # Draining

`Drain` and `Remove` wait for the wait groups of the versions they remove.  The executions
of a node take the bytes of the active plans and count in no wait group, so they are not
waited for.  What is true in every interleaving is less: if no version is in use when one of
them is called that may remove it, or taken for use until the call returns, then none that
was removed is in use.
-/

namespace FlowRulZ

open List

namespace Engine

inductive Task where
  | deploy (env : Env) (id dsl : String)
  | promote (env : Env) (id : String) (version : UInt64)
  | drain (id : String) (version : UInt64)
  | remove (env : Env) (id : String)

def Task.routine : Task → Routine Engine Reply
  | .deploy env id dsl => Engine.deploy env id dsl
  | .promote env id version => Engine.promote env id version
  | .drain id version => Engine.drain id version
  | .remove env id => Engine.remove env id

inductive Phase where
  | taken
  | running
  | over
  deriving Repr, DecidableEq

/-- An execution of the plan of a version, which is known by its wait group. -/
structure Execution where
  group : Nat
  phase : Phase
  deriving Repr, DecidableEq

/-- The operations of an engine, each with what was called, and the executions of the node. -/
structure Workload where
  sys : System Engine Reply
  tasks : List Task
  executions : List Execution

/-- `ActivePlanBytes`, by the versions that the bytes are of. -/
def activePlans (e : Engine) : List Nat :=
  e.rules.entries.filterMap fun entry =>
    entry.2.activePlan.bind fun vp => if 0 < vp.plan.length then some vp.activeExec else none

namespace Workload

def engine (w : Workload) : Engine := w.sys.state

inductive Event where
  | call (task : Task)
  | go (i : Nat)
  | executeAll
  /-- `executePlan` is called for the plan that was taken. -/
  | start (k : Nat)
  /-- `executePlan` returns, or it will not be called. -/
  | finish (k : Nat)

/-- One event. `ActivePlanBytes` only reads, in a read lock; it is one event that waits for a writer. When a plan that
was taken is run is up to the semaphore, the scheduler and the context, and so it may be run at any time. -/
def step (w : Workload) : Event → Workload
  | .call task => { w with sys := ⟨w.sys.state, w.sys.threads ++ [task.routine]⟩, tasks := w.tasks ++ [task] }
  | .go i => { w with sys := w.sys.go i }
  | .executeAll =>
    if w.engine.mu.writer then w
    else { w with executions := w.executions ++ (activePlans w.engine).map (⟨·, .taken⟩) }
  | .start k =>
    { w with executions := w.executions.modify k fun x =>
        if x.phase = .taken then { x with phase := .running } else x }
  | .finish k => { w with executions := w.executions.modify k fun x => { x with phase := .over } }

def component : Component Workload Event Unit where
  handle w event := (w.step event, [])

def reply (w : Workload) (i : Nat) : Option Reply :=
  match w.sys.threads[i]? with
  | some (.ret r) => some r
  | _ => none

theorem thread_of_reply {w : Workload} {i : Nat} {r : Reply} (returned : w.reply i = some r) :
    w.sys.threads[i]? = some (.ret r) := by
  unfold reply at returned
  split at returned
  · rename_i thread
    cases returned
    exact thread
  · cases returned

end Workload

def Listed (rules : Rules) (vp : VersionedPlan) (id : String) : Prop :=
  ∃ r, rules.lookup id = some r ∧ some vp ∈ r.versions

/-- The wait groups of all versions. -/
def groups (rules : Rules) : List Nat :=
  rules.entries.flatMap fun entry => groupsOf entry.2.versions

def Task.Targets : Task → String → VersionedPlan → Prop
  | .drain id version, id', vp => id' = id ∧ vp.version = version
  | .remove _ id, id', _ => id' = id
  | _, _, _ => False

/-- The version with a wait group is one that a call may remove. -/
def Task.Removes (task : Task) (rules : Rules) (group : Nat) : Prop :=
  ∃ vp id, Listed rules vp id ∧ task.Targets id vp ∧ vp.activeExec = group

/-- `Drain` and `Remove` are called when no version they may remove is in use, and none is taken until they return. -/
def Calm (w : Workload) : Workload.Event → Prop
  | .call task => ∀ x ∈ w.executions, x.phase ≠ .over → ¬ task.Removes w.engine.rules x.group
  | .executeAll => w.engine.mu.writer = false → ∀ i task, w.tasks[i]? = some task → w.reply i = none →
      ∀ group ∈ activePlans w.engine, ¬ task.Removes w.engine.rules group
  | _ => True

structure Grouped (rules : Rules) (allocated : Nat) : Prop where
  below : ∀ group ∈ groups rules, group < allocated
  nodup : (groups rules).Nodup

section

variable {rules : Rules} {allocated : Nat} {vp vp' : VersionedPlan} {id id' : String}
  {r : Rule} {i : Nat} {e : Engine}

theorem mem_groups {group : Nat} : group ∈ groups rules ↔ ∃ vp id, Listed rules vp id ∧ vp.activeExec = group := by
  simp only [groups, groupsOf, mem_flatMap, mem_filterMap]
  constructor
  · rintro ⟨⟨id, r⟩, member, v, listed, own⟩
    obtain ⟨vp, rfl, rfl⟩ := Option.map_eq_some_iff.mp own
    exact ⟨vp, id, ⟨r, AList.mem_lookup_iff.mpr member, listed⟩, rfl⟩
  · rintro ⟨vp, id, ⟨r, known, listed⟩, rfl⟩
    exact ⟨⟨id, r⟩, AList.mem_lookup_iff.mp known, some vp, listed, rfl⟩

theorem listed_insert : Listed (rules.insert id r) vp id' ↔
    if id' = id then some vp ∈ r.versions else Listed rules vp id' := by
  unfold Listed
  split_ifs with here
  · subst here
    simp [AList.lookup_insert]
  · rw [AList.lookup_insert_ne here]

theorem listed_erase : Listed (rules.erase id) vp id' ↔ id' ≠ id ∧ Listed rules vp id' := by
  unfold Listed
  by_cases here : id' = id
  · subst here
    simp [AList.lookup_erase]
  · simp [here]

theorem listed_ruleOr (activeVersion : Int) : some vp ∈ (e.ruleOr id activeVersion).versions ↔ Listed e.rules vp id := by
  cases known : e.rules.lookup id <;> simp [ruleOr, Listed, known]

theorem groups_insert : groups (rules.insert id r) = groupsOf r.versions ++ groups (rules.erase id) := by
  rw [groups, AList.entries_insert]
  rfl

/-- The groups of a rule and those of all others. -/
theorem groups_ruleOr (e : Engine) (id : String) (activeVersion : Int) :
    (groups e.rules).Perm (groupsOf (e.ruleOr id activeVersion).versions ++ groups (e.rules.erase id)) := by
  cases known : e.rules.lookup id with
  | none =>
    have same : e.rules.erase id = e.rules := AList.ext (kerase_of_notMem_keys (AList.lookup_eq_none.mp known))
    simp [ruleOr, known, same, groupsOf]
  | some r =>
    obtain ⟨r', before, after, -, whole, rest⟩ :=
      exists_of_kerase (show id ∈ e.rules.entries.keys from AList.lookup_isSome.mp (by rw [known]; rfl))
    have own : e.rules.lookup id = some r' := AList.mem_lookup_iff.mpr (by simp [whole])
    cases known.symm.trans own
    have others : (e.rules.erase id).entries = before ++ after := rest
    simp only [ruleOr, known, Option.getD_some, groups, others]
    rw [whole, flatMap_append, flatMap_cons, flatMap_append]
    exact perm_append_comm_assoc ..

/-- What is left if some groups go. -/
theorem Grouped.leave {rules' : Rules} {gone : List Nat} (grouped : Grouped rules allocated)
    (split : (groups rules).Perm (gone ++ groups rules')) :
    Grouped rules' allocated ∧ ∀ group ∈ gone, group < allocated ∧ group ∉ groups rules' := by
  obtain ⟨-, nodup, apart⟩ := List.nodup_append.mp (split.nodup_iff.mp grouped.nodup)
  have below (group : Nat) (there : group ∈ gone ++ groups rules') := grouped.below group (split.mem_iff.mpr there)
  refine ⟨⟨fun group there => below group (mem_append_right _ there), nodup⟩, fun group listed => ?_⟩
  exact ⟨below group (mem_append_left _ listed), fun there => apart group listed group there rfl⟩

/-- What there is if new groups come. -/
theorem Grouped.come {rules' : Rules} (new : List Nat) {more : Nat}
    (grouped : Grouped rules allocated) (split : (groups rules').Perm (new ++ groups rules)) (distinct : new.Nodup)
    (fresh : ∀ group ∈ new, allocated ≤ group ∧ group < allocated + more) : Grouped rules' (allocated + more) := by
  refine ⟨fun group there => ?_, split.nodup_iff.mpr (List.nodup_append.mpr ⟨distinct, grouped.nodup, ?_⟩)⟩
  · rcases mem_append.mp (split.mem_iff.mp there) with new | old
    · exact (fresh group new).2
    · exact Nat.lt_add_right more (grouped.below group old)
  · rintro group new _ old rfl
    exact absurd (fresh group new).1 (grouped.below group old).not_ge

theorem groups_eraseIdx {versions : List (Option VersionedPlan)} (there : versions[i]? = some (some vp)) :
    (groupsOf versions).Perm (vp.activeExec :: groupsOf (versions.eraseIdx i)) := by
  obtain ⟨inside, here⟩ := List.getElem?_eq_some_iff.mp there
  exact ((getElem_cons_eraseIdx_perm inside).symm.trans (by rw [here])).filterMap _

theorem groups_drained (known : e.rules.lookup id = some r) (there : r.versions[i]? = some (some vp)) :
    (groups e.rules).Perm ([vp.activeExec] ++ groups (e.drained id r i).rules) := by
  have own : e.ruleOr id 0 = r := by rw [ruleOr, known, Option.getD_some]
  have split := groups_ruleOr e id 0
  rw [own] at split
  refine split.trans (((groups_eraseIdx there).append_right _).trans ?_)
  unfold drained
  split_ifs with empty
  · rw [eq_nil_of_length_eq_zero (show (r.versions.eraseIdx i).length = 0 from empty)]
    rfl
  · rw [setRule, groups_insert]
    rfl

theorem listed_drained (known : e.rules.lookup id = some r) (there : Listed (e.drained id r i).rules vp id') :
    Listed e.rules vp id' := by
  unfold drained at there
  split_ifs at there
  · exact (listed_erase.mp there).2
  · have listed := listed_insert.mp there
    split_ifs at listed with here
    · exact ⟨r, here ▸ known, mem_of_mem_eraseIdx listed⟩
    · exact listed

theorem drained_listed (known : e.rules.lookup id = some r) (there : r.versions[i]? = some (some vp))
    (listed : Listed e.rules vp' id') : Listed (e.drained id r i).rules vp' id' ∨ id' = id ∧ vp' = vp := by
  by_cases here : id' = id
  · subst here
    obtain ⟨r', known', listed⟩ := listed
    cases known.symm.trans known'
    obtain ⟨j, found⟩ := mem_iff_getElem?.mp listed
    by_cases same : j = i
    · subst same
      cases there.symm.trans found
      exact .inr ⟨rfl, rfl⟩
    · have kept : some vp' ∈ (r.drop i).versions := mem_eraseIdx_iff_getElem?.mpr ⟨j, same, found⟩
      left
      rw [drained, if_neg (length_pos_of_mem kept).ne']
      exact listed_insert.mpr ((if_pos rfl).mpr kept)
  · left
    unfold drained
    split_ifs
    · exact listed_erase.mpr ⟨here, listed⟩
    · exact listed_insert.mpr ((if_neg here).mpr listed)

end

/-! ## The lock of the rules -/

/-- What an action of a call does to the rules: only what it may remove leaves them, and what comes is new. -/
structure Changes (task : Task) (e e' : Engine) : Prop where
  leaves : ∀ vp id, Listed e.rules vp id → Listed e'.rules vp id ∨ task.Targets id vp
  comes : ∀ vp id, Listed e'.rules vp id → Listed e.rules vp id ∨ e.allocated ≤ vp.activeExec

theorem still_changes {task : Task} (e e' : Engine) (same : e'.rules = e.rules) : Changes task e e' where
  leaves _ _ there := .inl (same ▸ there)
  comes _ _ there := .inl (same ▸ there)

def Reports (gone : List Nat) (reply : Reply) : Prop := ∀ group ∈ reply.gone, group ∈ gone

def Left (gone : List Nat) (data : Guarded) : Prop := ∀ group ∈ gone, group < data.2 ∧ group ∉ groups data.1

/-- The write lock protects the rules. A version that has left them does not come back. -/
abbrev rulesLock : Discipline Engine Guarded (List Nat) := guarding (fun data => Grouped data.1 data.2) Left

/-- A change in the lock, after which some versions have left the rules. -/
abbrev Keeps (task : Task) (e e' : Engine) (gone : List Nat) : Prop :=
  Makes (fun data => Grouped data.1 data.2) Left (Changes task) e e' gone

section

variable {task : Task} {e e' : Engine} {gone : List Nat}

theorem keeps_of_changes (grouped : Grouped e'.rules e'.allocated) (more : e.allocated ≤ e'.allocated)
    (changes : Changes task e e') (left : Left gone e'.guarded) : Keeps task e e' gone := by
  refine ⟨grouped, ?_, left, changes⟩
  intro gone known group listed
  obtain ⟨below, absent⟩ := known group listed
  refine ⟨below.trans_le more, fun there => ?_⟩
  obtain ⟨vp, id, has, rfl⟩ := mem_groups.mp there
  rcases changes.comes vp id has with old | new
  · exact absent (mem_groups.mpr ⟨vp, id, old, rfl⟩)
  · exact absurd below new.not_gt

theorem keeps_leave (grouped : Grouped e.rules e.allocated) (allocated : e'.allocated = e.allocated)
    (split : (groups e.rules).Perm (gone ++ groups e'.rules))
    (comes : ∀ vp id, Listed e'.rules vp id → Listed e.rules vp id)
    (leaves : ∀ vp id, Listed e.rules vp id → Listed e'.rules vp id ∨ task.Targets id vp) : Keeps task e e' gone := by
  obtain ⟨grouped', left⟩ := grouped.leave split
  rw [← allocated] at grouped' left
  exact keeps_of_changes grouped' allocated.ge ⟨leaves, fun vp id there => .inl (comes vp id there)⟩ left

end

/-! ## The operations -/

section

variable {e : Engine} {id : String} {r : Rule} {i : Nat} {vp : VersionedPlan} {version : UInt64}
  (grouped : Grouped e.rules e.allocated)

include grouped

theorem keeps_deployed (env : Env) (dsl : String) (plan : Bytes) (version : UInt64) (lane : Lane) :
    Keeps (.deploy env id dsl) e (e.deployed id plan dsl version lane) [] := by
  have listed (vp : VersionedPlan) (id' : String) : Listed (e.deployed id plan dsl version lane).rules vp id' ↔
      Listed e.rules vp id' ∨ id' = id ∧ vp = ⟨plan, dsl, version, lane, e.allocated⟩ := by
    refine listed_insert.trans ?_
    split_ifs with here
    · subst here
      simp [Rule.append, ← listed_ruleOr 0]
    · simp [here]
  refine keeps_of_changes ?_ (Nat.le_succ _) ⟨fun vp id' there => .inl ((listed vp id').mpr (.inl there)), ?_⟩
    (forall_mem_nil _)
  · refine grouped.come [e.allocated] ?_ (nodup_singleton _) (by simp)
    refine Perm.trans (.of_eq groups_insert) ?_
    rw [Rule.append, groupsOf, filterMap_append, append_assoc]
    exact (perm_append_comm_assoc ..).trans ((groups_ruleOr e id 0).symm.append_left _)
  · intro vp id' there
    rcases (listed vp id').mp there with old | ⟨-, rfl⟩
    · exact .inl old
    · exact .inr (Nat.le_refl _)

theorem keeps_removed (env : Env) :
    Keeps (.remove env id) e { e with rules := e.rules.erase id } (groupsOf (e.ruleOr id 0).versions) := by
  refine keeps_leave grouped rfl (groups_ruleOr e id 0) (fun vp id' there => (listed_erase.mp there).2) ?_
  intro vp id' there
  by_cases here : id' = id
  · exact .inr here
  · exact .inl (listed_erase.mpr ⟨here, there⟩)

variable (known : e.rules.lookup id = some r)
include known

theorem keeps_promoted (env : Env) :
    Keeps (.promote env id version) e (e.setRule id { r with activeVersion := i }) [] := by
  have own : e.ruleOr id 0 = r := by rw [ruleOr, known, Option.getD_some]
  have same (vp : VersionedPlan) (id' : String) :
      Listed (e.setRule id { r with activeVersion := i }).rules vp id' ↔ Listed e.rules vp id' := by
    refine listed_insert.trans ?_
    split_ifs with here
    · rw [here, ← listed_ruleOr 0, own]
    · rfl
  refine keeps_leave grouped rfl ?_ (fun vp id' => (same vp id').mp) fun vp id' there => .inl ((same vp id').mpr there)
  have split := groups_ruleOr e id 0
  rw [own] at split
  exact split.trans (.of_eq groups_insert.symm)

theorem keeps_drained (found : find version r.versions = .at i vp) :
    Keeps (.drain id version) e (e.drained id r i) [vp.activeExec] := by
  obtain ⟨there, number⟩ := find_at found
  refine keeps_leave grouped (drained_allocated e id r i) (groups_drained known there)
    (fun _ _ => listed_drained known) fun vp' id' listed => ?_
  rcases drained_listed known there listed with kept | ⟨rfl, rfl⟩
  · exact .inl kept
  · exact .inr ⟨rfl, number⟩

end

theorem acts_task (task : Task) : rulesLock.Acts (Changes task) Reports task.routine none [] := by
  have ends (groups : List Nat) (reply : Reply) (same : reply.gone = groups) : Reports groups reply :=
    fun _ listed => same ▸ listed
  cases task with
  | deploy env ruleID dsl =>
    exact acts_deploy id still_changes ends env ruleID dsl fun _ _ _ _ grouped => keeps_deployed grouped env dsl _ _ _
  | promote env ruleID version =>
    exact acts_promote id still_changes ends env ruleID version fun _ _ _ _ known _ grouped =>
      keeps_promoted grouped known env
  | drain ruleID version =>
    exact acts_drain id still_changes ends ruleID version fun _ _ _ _ known found grouped =>
      keeps_drained grouped known found
  | remove env ruleID => exact acts_remove id still_changes ends env ruleID fun _ grouped => keeps_removed grouped env

variable {e : Engine}

section

variable (compile : Compile)

theorem groups_loadVersions (id : String) (versions : List VersionPersistence) :
    ∀ group, groupsOf (loadVersions compile id group versions) <+ List.range' group versions.length := by
  induction versions with
  | nil => exact fun _ => .slnil
  | cons v versions ih =>
    intro group
    rw [loadVersions, groupsOf, filterMap_cons, length_cons, range'_succ]
    cases compiled : compile v.dsl id <;> simp only [loadVersion, compiled]
    · exact .cons _ (ih _)
    · exact .cons_cons _ (ih _)

theorem grouped_loadRule (grouped : Grouped e.rules e.allocated) (rp : RulePersistence) :
    Grouped (loadRule compile e rp).rules (loadRule compile e rp).allocated := by
  have new := groups_loadVersions compile rp.id rp.versions e.allocated
  have others := (grouped.leave (groups_ruleOr e rp.id 0)).1
  simp only [loadRule, loadVersions_length]
  split_ifs with empty
  · exact ⟨fun group there => Nat.lt_add_right _ (grouped.below group there), grouped.nodup⟩
  · refine others.come _ (.of_eq groups_insert) (new.nodup nodup_range') fun group there => ?_
    simpa using new.subset there

end

theorem grouped_new (compile : Compile) (path : String) (file : RulesFile) :
    Grouped (new compile path file).rules (new compile path file).allocated := by
  have empty : Grouped ∅ 0 := ⟨nofun, nodup_nil⟩
  simp only [new]
  split_ifs
  · exact empty
  · exact List.foldlRecOn (motive := fun e : Engine => Grouped e.rules e.allocated) _ _ empty
      fun _ grouped rp _ => grouped_loadRule compile grouped rp

/-! ## Every interleaving -/

/-- The threads keep the discipline. The version of an execution that is not over is in the rules, and
no call that has not returned may remove it. -/
structure Sound (w : Workload) : Prop where
  orderly : ∃ held gone, rulesLock.Orderly Changes Reports w.tasks w.sys held gone
  stored : ∀ x ∈ w.executions, x.phase ≠ .over → x.group ∈ groups w.engine.rules
  spared : ∀ i task, w.tasks[i]? = some task → w.reply i = none →
    ∀ x ∈ w.executions, x.phase ≠ .over → ¬ task.Removes w.engine.rules x.group

theorem stored_activePlans {group : Nat} (listed : group ∈ activePlans e) : group ∈ groups e.rules := by
  obtain ⟨⟨id, r⟩, member, taken⟩ := mem_filterMap.mp listed
  obtain ⟨vp, active, own⟩ := Option.bind_eq_some_iff.mp taken
  obtain ⟨i, -, there⟩ := activePlan_some active
  split_ifs at own
  cases own
  exact mem_groups.mpr ⟨vp, id, ⟨r, AList.mem_lookup_iff.mpr member, mem_of_getElem? there⟩, rfl⟩

theorem of_mem_modify {executions : List Execution} {k : Nat} {f : Execution → Execution} {x : Execution}
    (there : x ∈ executions.modify k f) : ∃ y ∈ executions, x = y ∨ x = f y := by
  obtain ⟨i, found⟩ := mem_iff_getElem?.mp there
  rw [getElem?_modify] at found
  obtain ⟨y, old, rfl⟩ := Option.map_eq_some_iff.mp found
  refine ⟨y, mem_of_getElem? old, ?_⟩
  split_ifs
  · exact .inr rfl
  · exact .inl rfl

variable {w : Workload}

theorem reply_go {i j : Nat} {r : Reply} (returned : w.reply j = some r) :
    (w.step (.go i)).reply j = some r ∧ (i = j → (w.step (.go i)).engine = w.engine) := by
  have thread := Workload.thread_of_reply returned
  by_cases own : i = j
  · subst own
    have same : w.step (.go i) = w := by simp only [Workload.step, System.go, thread]
    rw [same]
    exact ⟨returned, fun _ => rfl⟩
  · have kept : (w.sys.go i).threads[j]? = w.sys.threads[j]? := by
      unfold System.go
      split
      · split_ifs
        · exact getElem?_set_ne own
        · rfl
      · rfl
    refine ⟨?_, fun same => absurd same own⟩
    rw [Workload.reply, Workload.step, kept, thread]

/-- Executions that are among those before, or have ended. -/
theorem Sound.executions (sound : Sound w) {executions : List Execution}
    (old : ∀ x ∈ executions, x.phase ≠ .over → ∃ y ∈ w.executions, y.phase ≠ .over ∧ x.group = y.group) :
    Sound { w with executions } where
  orderly := sound.orderly
  stored x there unfinished := by
    obtain ⟨y, before, unfinished', same⟩ := old x there unfinished
    rw [same]
    exact sound.stored y before unfinished'
  spared i task called waits x there unfinished := by
    obtain ⟨y, before, unfinished', same⟩ := old x there unfinished
    rw [same]
    exact sound.spared i task called waits y before unfinished'

theorem sound_call (sound : Sound w) {task : Task} (calm : Calm w (.call task)) : Sound (w.step (.call task)) := by
  obtain ⟨held, gone, orderly⟩ := sound.orderly
  refine ⟨orderly.spawn (acts_task task) nofun, sound.stored, ?_⟩
  intro i task' called waits x there unfinished
  rcases Table.of_concat called with old | ⟨-, rfl⟩
  · have before : w.reply i = none := by
      unfold Workload.reply at waits ⊢
      rwa [Workload.step, getElem?_append_left (orderly.aligned ▸ Table.lt_length old)] at waits
    exact sound.spared i task' old before x there unfinished
  · exact calm x there unfinished

theorem sound_go (sound : Sound w) (i : Nat) : Sound (w.step (.go i)) := by
  obtain ⟨held, gone, orderly⟩ := sound.orderly
  -- no version in use is one that the thread may remove, and none that comes is in use
  have kept : (∀ x ∈ w.executions, x.phase ≠ .over → x.group ∈ groups (w.step (.go i)).engine.rules) ∧
      ∀ task : Task, ∀ x ∈ w.executions, x.phase ≠ .over →
        task.Removes (w.step (.go i)).engine.rules x.group → task.Removes w.engine.rules x.group := by
    by_cases outside : w.sys.threads.length ≤ i
    · have same : w.step (.go i) = w := by simp [Workload.step, System.go, getElem?_eq_none outside]
      rw [same]
      exact ⟨sound.stored, fun _ _ _ _ removes => removes⟩
    · obtain ⟨own, called⟩ : ∃ own, w.tasks[i]? = some own :=
        ⟨_, getElem?_eq_getElem (by rw [orderly.aligned]; omega)⟩
      have changes : Changes own w.engine (w.step (.go i)).engine :=
        orderly.does called fun e => still_changes e e rfl
      constructor
      · intro x there unfinished
        cases returned : w.reply i with
        | some r =>
          rw [(reply_go returned).2 rfl]
          exact sound.stored x there unfinished
        | none =>
          obtain ⟨vp, id, listed, group⟩ := mem_groups.mp (sound.stored x there unfinished)
          rcases changes.leaves vp id listed with kept | target
          · exact mem_groups.mpr ⟨vp, id, kept, group⟩
          · exact absurd ⟨vp, id, listed, target, group⟩ (sound.spared i own called returned x there unfinished)
      · rintro task x there unfinished ⟨vp, id, listed, target, group⟩
        rcases changes.comes vp id listed with old | new
        · exact ⟨vp, id, old, target, group⟩
        · have below := orderly.inv.below x.group (sound.stored x there unfinished)
          exact absurd new (group ▸ below).not_ge
  refine ⟨orderly.go i, kept.1, ?_⟩
  intro j task called waits x there unfinished removes
  refine sound.spared j task called ?_ x there unfinished (kept.2 task x there unfinished removes)
  cases returned : w.reply j with
  | none => rfl
  | some r => cases waits.symm.trans (reply_go returned).1

theorem sound_step {event : Workload.Event} (sound : Sound w) (calm : Calm w event) : Sound (w.step event) := by
  cases event with
  | call task => exact sound_call sound calm
  | go i => exact sound_go sound i
  | executeAll =>
    simp only [Workload.step]
    split_ifs with locked
    · exact sound
    · refine ⟨sound.orderly, ?_, ?_⟩
      · intro x there unfinished
        rcases mem_append.mp there with old | new
        · exact sound.stored x old unfinished
        · obtain ⟨group, listed, rfl⟩ := mem_map.mp new
          exact stored_activePlans listed
      · intro i task called waits x there unfinished
        rcases mem_append.mp there with old | new
        · exact sound.spared i task called waits x old unfinished
        · obtain ⟨group, listed, rfl⟩ := mem_map.mp new
          exact calm (Bool.eq_false_iff.mpr locked) i task called waits group listed
  | start k =>
    refine sound.executions fun x there unfinished => ?_
    obtain ⟨y, old, rfl | rfl⟩ := of_mem_modify there
    · exact ⟨x, old, unfinished, rfl⟩
    · split_ifs at unfinished ⊢ with taken
      · exact ⟨y, old, by simp [taken], rfl⟩
      · exact ⟨y, old, unfinished, rfl⟩
  | finish k =>
    refine sound.executions fun x there unfinished => ?_
    obtain ⟨y, old, rfl | rfl⟩ := of_mem_modify there
    · exact ⟨x, old, unfinished, rfl⟩
    · exact absurd rfl unfinished

/-- If `Drain` and `Remove` are called for what is not in use, and nothing of it is taken until they return,
then no version that was removed is in use when they return, or later. -/
theorem removed_not_running (compile : Compile) (path : String) (file : RulesFile)
    {events : List Workload.Event}
    (calm : Workload.component.Throughout Calm ⟨⟨new compile path file, []⟩, [], []⟩ events) (i : Nat)
    (reply : Reply)
    (returned : (Workload.component.after ⟨⟨new compile path file, []⟩, [], []⟩ events).reply i = some reply) :
    ∀ group ∈ reply.gone, ∀ x ∈ (Workload.component.after ⟨⟨new compile path file, []⟩, [], []⟩ events).executions,
      x.group = group → x.phase = .over := by
  have start : Sound ⟨⟨new compile path file, []⟩, [], []⟩ := by
    refine ⟨⟨fun _ => none, fun _ => [], grouped_new compile path file, rfl, nofun, fun _ => nofun, ?_⟩, nofun, nofun⟩
    exact fun _ _ held => absurd rfl held
  have sound := (Workload.component.always_of_throughout (fun _ _ => sound_step) start calm).last
  obtain ⟨held, fact, orderly⟩ := sound.orderly
  obtain ⟨gone, reports, knows⟩ := orderly.returned (Workload.thread_of_reply returned)
  rintro group listed x there rfl
  by_contra unfinished
  exact (knows x.group (reports x.group listed)).2 (sound.stored x there unfinished)

/-- A rule is deployed; its plan is executed; and then its version is drained. -/
theorem drained_after_execution :
    let w := Workload.component.after ⟨⟨new textPlan "" none, []⟩, [], []⟩
      ([.call (.deploy { compile := textPlan } "a" "x")] ++ List.replicate 5 (.go 0) ++
        [.executeAll, .start 0, .finish 0, .call (.drain "a" 1)] ++ List.replicate 8 (.go 1))
    w.reply 1 = some (.drained [0]) ∧ ∀ x ∈ w.executions, x.group = 0 → x.phase = .over := by
  refine ⟨rfl, removed_not_running textPlan "" none ?_ 1 (.drained [0]) rfl 0 (mem_singleton_self 0)⟩
  refine ⟨nofun, trivial, trivial, trivial, trivial, trivial, ?_, trivial, trivial, ?_, trivial, trivial, trivial,
    trivial, trivial, trivial, trivial, trivial, trivial⟩
  · rintro - i task called waits
    obtain rfl : i = 0 := Nat.lt_one_iff.mp (Table.lt_length called)
    cases waits
  · intro x there unfinished
    cases mem_singleton.mp there
    exact absurd rfl unfinished

/-- `Drain` returns while an execution of the version it has removed is running. -/
theorem drain_returns_while_running : ∃ events i group,
      (Workload.component.after ⟨⟨new textPlan "" none, []⟩, [], []⟩ events).reply i = some (.drained [group]) ∧
        ⟨group, .running⟩ ∈ (Workload.component.after ⟨⟨new textPlan "" none, []⟩, [], []⟩ events).executions :=
  ⟨[.call (.deploy { compile := textPlan } "a" "x")] ++ List.replicate 5 (.go 0) ++
      [.executeAll, .start 0, .call (.drain "a" 1)] ++ List.replicate 8 (.go 1), 1, 0, rfl, by decide⟩

end Engine

end FlowRulZ
