import FlowRulZ.Engine.Rules
import FlowRulZ.Lib.Table
import FlowRulZ.Lib.Traverse

/-! # Histories of an engine

What each operation does to the rules and to the file if no lock keeps it waiting, and the
engine as a component whose requests are the operations.  A restart is a request too.
-/

open List

namespace FlowRulZ

open Routine

section

variable {version : UInt64} {versions : List (Option VersionedPlan)} {i : Nat} {vp : VersionedPlan}

theorem find_at (found : find version versions = .at i vp) : versions[i]? = some (some vp) ∧ vp.version = version := by
  induction versions generalizing i with
  | nil => cases found
  | cons v versions ih =>
    cases v with
    | none => cases found
    | some first =>
      rw [find] at found
      split at found
      · rename_i same
        cases found
        exact ⟨rfl, same⟩
      · split at found
        · rename_i j other later
          cases found
          exact ih later
        · rename_i other
          exact absurd found (other i vp)

theorem find_missing : find version versions = .missing ↔ ∀ v ∈ versions, ∃ vp, v = some vp ∧ vp.version ≠ version := by
  induction versions with
  | nil => simp [find]
  | cons v versions ih =>
    cases v with
    | none => simp [find]
    | some first =>
      rw [find, forall_mem_cons, ← ih]
      split_ifs with same
      · simp [same]
      · cases find version versions <;> simp [same]

end

namespace Engine

def EveryRule (P : String → Rule → Prop) (rules : Rules) : Prop :=
  ∀ id r, rules.lookup id = some r → P id r

section

variable {P : String → Rule → Prop} {rules : Rules}

theorem everyRule_empty : EveryRule P ∅ := by
  intro id r known
  simp at known

theorem EveryRule.insert {id : String} {r : Rule} (every : EveryRule P rules) (new : P id r) :
    EveryRule P (rules.insert id r) := by
  intro id' r' known
  rcases Table.of_insert known with ⟨rfl, rfl⟩ | ⟨-, old⟩
  · exact new
  · exact every id' r' old

theorem EveryRule.erase (every : EveryRule P rules) (id : String) : EveryRule P (rules.erase id) := by
  intro id' r' known
  exact every id' r' (Table.of_erase known).2

theorem EveryRule.ruleOr {e : Engine} {id : String} {activeVersion : Int} (every : EveryRule P e.rules)
    (empty : P id { activeVersion }) : P id (e.ruleOr id activeVersion) := by
  unfold Engine.ruleOr
  cases known : e.rules.lookup id with
  | none => exact empty
  | some r => exact every id r known

end

theorem mapM_stored (versions : List (Option VersionedPlan)) (out : List VersionPersistence) :
    (versions.mapM fun v => v.map (·.stored)) = some out ↔
      ∃ vps : List VersionedPlan, versions = vps.map some ∧ out = vps.map (·.stored) := by
  constructor
  · induction versions generalizing out with
    | nil =>
      intro mapped
      cases mapped
      exact ⟨[], rfl, rfl⟩
    | cons v versions ih =>
      intro mapped
      simp only [mapM_cons, Option.bind_eq_bind, Option.bind_eq_some_iff, Option.pure_def,
        Option.some.injEq, Option.map_eq_some_iff] at mapped
      obtain ⟨_, ⟨vp, rfl, rfl⟩, rest, mapped, rfl⟩ := mapped
      obtain ⟨vps, rfl, rfl⟩ := ih rest mapped
      exact ⟨vp :: vps, rfl, rfl⟩
  · rintro ⟨vps, rfl, rfl⟩
    induction vps with
    | nil => rfl
    | cons vp vps ih => simp only [map_cons, mapM_cons, Option.map_some, ih, Option.bind_eq_bind,
        Option.bind_some, Option.pure_def]

theorem persistRule_eq_some {id : String} {r : Rule} {rp : RulePersistence} :
    persistRule id r = some rp ↔ ∃ vps : List VersionedPlan, r.versions = vps.map some ∧
        rp = ⟨id, vps.map (·.stored), r.activeVersion⟩ := by
  simp only [persistRule, Option.bind_eq_bind, Option.bind_eq_some_iff, mapM_stored, Option.pure_def, Option.some.injEq]
  constructor
  · rintro ⟨out, ⟨vps, versions, rfl⟩, rfl⟩
    exact ⟨vps, versions, rfl⟩
  · rintro ⟨vps, versions, rfl⟩
    exact ⟨_, ⟨vps, versions, rfl⟩, rfl⟩

theorem of_mem_persist {rules : Rules} {written : List RulePersistence}
    (persisted : persist rules = some written) {rp : RulePersistence} (there : rp ∈ written) :
    ∃ r, rules.lookup rp.id = some r ∧ persistRule rp.id r = some rp := by
  obtain ⟨⟨id, r⟩, listed, same⟩ := Traverse.of_mem_mapM persisted there
  obtain ⟨vps, -, rfl⟩ := persistRule_eq_some.mp same
  exact ⟨r, AList.mem_lookup_iff.mpr listed, same⟩

theorem everyRule_load {P : String → Rule → Prop} (compile : Compile) (file : List RulePersistence)
    (loaded : ∀ rp ∈ file, rp.versions ≠ [] → ∀ group,
      P rp.id (loadedRule (loadVersions compile rp.id group rp.versions) rp.activeVersion)) :
    ∀ e : Engine, EveryRule P e.rules → EveryRule P (file.foldl (loadRule compile) e).rules := by
  intro e before
  refine List.foldlRecOn (motive := fun e : Engine => EveryRule P e.rules) _ _ before ?_
  intro e before rp there
  unfold loadRule
  dsimp only
  split_ifs with empty
  · exact before
  · apply before.insert (loaded rp there _ e.allocated)
    rintro none
    rw [none] at empty
    exact empty rfl

theorem load_kept (compile : Compile) (file : List RulePersistence) :
    ∀ e : Engine, (file.foldl (loadRule compile) e).persistPath = e.persistPath ∧
      (file.foldl (loadRule compile) e).file = e.file := by
  induction file with
  | nil => exact fun e => ⟨rfl, rfl⟩
  | cons rp file ih => exact fun e => ih (loadRule compile e rp)

theorem reload_kept (compile : Compile) (e : Engine) :
    (e.reload compile).persistPath = e.persistPath ∧ (e.reload compile).file = e.file := by
  simp only [reload, new]
  split_ifs
  · exact ⟨rfl, rfl⟩
  · exact load_kept ..

theorem everyRule_reload {P : String → Rule → Prop} (compile : Compile) (e : Engine)
    (loaded : ∀ rules, e.file = some rules → ∀ rp ∈ rules, rp.versions ≠ [] → ∀ group,
      P rp.id (loadedRule (loadVersions compile rp.id group rp.versions) rp.activeVersion)) :
    EveryRule P (e.reload compile).rules := by
  simp only [reload, new]
  split_ifs with path
  · exact everyRule_empty
  · refine everyRule_load compile _ ?_ _ everyRule_empty
    intro rp listed
    cases file : e.file with
    | none => simp [file] at listed
    | some rules => exact loaded rules file rp (by simpa [file] using listed)

theorem of_mem_loadVersions {compile : Compile} {id : String} {vp : VersionedPlan}
    (versions : List VersionPersistence) :
    ∀ group, some vp ∈ loadVersions compile id group versions →
      ∃ v ∈ versions, ∃ g, loadVersion compile id g v = some vp := by
  induction versions with
  | nil => simp [loadVersions]
  | cons v versions ih =>
    intro group there
    rw [loadVersions, mem_cons] at there
    rcases there with here | later
    · exact ⟨v, mem_cons_self, group, here.symm⟩
    · obtain ⟨v', listed, built⟩ := ih (group + 1) later
      exact ⟨v', mem_cons_of_mem _ listed, built⟩

section

variable {R : Type} (e : Engine) (next : Unit → Routine Engine R)

@[simp]
theorem eval_lock : (lock >>= next).eval e = (next ()).eval (e.setMu { e.mu with writer := true }) := rfl

@[simp]
theorem eval_unlock : (unlock >>= next).eval e = (next ()).eval (e.setMu { e.mu with writer := false }) := rfl

@[simp]
theorem eval_rlock : (rlock >>= next).eval e = (next ()).eval (e.setMu { e.mu with readers := e.mu.readers + 1 }) := rfl

@[simp]
theorem eval_runlock : (runlock >>= next).eval e =
    (next ()).eval (e.setMu { e.mu with readers := e.mu.readers - 1 }) := rfl

@[simp]
theorem eval_wait (group : Nat) : (wait group >>= next).eval e = (next ()).eval e := rfl

@[simp]
theorem setMu_ruleOr (mu : RWMutex) (id : String) (activeVersion : Int) :
    (e.setMu mu).ruleOr id activeVersion = e.ruleOr id activeVersion := rfl

theorem eval_waitAll (versions : List (Option VersionedPlan)) : (waitAll versions >>= next).eval e = (next ()).eval e ∨
      (waitAll versions >>= next).eval e = (none, e) := by
  induction versions with
  | nil => exact .inl rfl
  | cons v versions ih =>
    cases v with
    | none => exact .inr rfl
    | some vp => exact ih

end

structure Same (e e' : Engine) : Prop where
  rules : e'.rules = e.rules
  nextVersion : e'.nextVersion = e.nextVersion
  persistPath : e'.persistPath = e.persistPath
  file : e'.file = e.file

/-- How a change of the rules ends that is followed by `saveRules`. -/
structure Committed (writes : Bool) (changed : Engine) (reply : Reply) (out : Option Reply × Engine) :
    Prop where
  rules : out.2.rules = changed.rules
  nextVersion : out.2.nextVersion = changed.nextVersion
  persistPath : out.2.persistPath = changed.persistPath
  /-- A nil pointer is met, or there is no path, or the rules are written. -/
  ended : (out.1 = none ∧ changed.persistPath ≠ "" ∧ persist changed.rules = none ∧
      out.2.file = changed.file) ∨
    out.1 = some reply ∧ ((changed.persistPath = "" ∧ out.2.file = changed.file) ∨
        changed.persistPath ≠ "" ∧ ∃ rules, persist changed.rules = some rules ∧
          out.2.file = if writes then some rules else changed.file)

theorem eval_saveRules (writes : Bool) (e : Engine) (reply : Reply) : Committed writes e reply
      ((saveRules writes >>= fun _ => unlock >>= fun _ => ret reply).eval e) := by
  by_cases path : e.persistPath = ""
  · simp only [saveRules, bind_assoc, eval_read, path, if_true, pure_bind, eval_unlock, eval_ret]
    exact ⟨rfl, rfl, rfl, .inr ⟨rfl, .inl ⟨path, rfl⟩⟩⟩
  · simp only [saveRules, bind_assoc, eval_read, path, if_false, eval_rlock, setMu_rules]
    cases written : persist e.rules with
    | none => exact ⟨rfl, rfl, rfl, .inl ⟨rfl, path, written, rfl⟩⟩
    | some rules =>
      cases writes <;> exact ⟨rfl, rfl, rfl, .inr ⟨rfl, .inr ⟨path, rules, written, rfl⟩⟩⟩

theorem Committed.of_data {writes : Bool} {changed changed' : Engine} {reply : Reply}
    {out : Option Reply × Engine} (committed : Committed writes changed' reply out)
    (same : Same changed changed') : Committed writes changed reply out where
  rules := committed.rules.trans same.rules
  nextVersion := committed.nextVersion.trans same.nextVersion
  persistPath := committed.persistPath.trans same.persistPath
  ended := by
    rw [← same.rules, ← same.persistPath, ← same.file]
    exact committed.ended

section

variable (e : Engine) (env : Env) (id dsl : String) (plan : Bytes) (version : UInt64)

theorem deploy_committed {result : CompileResult} (compiled : env.compile dsl id = .ok result) : Committed env.writes
      ({ e with nextVersion := e.nextVersion + 1 }.deployed id result.plan dsl (e.nextVersion + 1)
        (laneForScore result.complexity))
      (.deployed result.plan (e.nextVersion + 1)) ((deploy env id dsl).eval e) := by
  simp only [deploy, compiled, step_bind, eval_step, ret_bind, eval_lock, eval_modify]
  exact (eval_saveRules env.writes _ _).of_data ⟨rfl, rfl, rfl, rfl⟩

theorem addVersion_missing (found : find version (e.ruleOr id (-1)).versions = .missing) :
    Committed env.writes (e.added id plan dsl version (laneForScore (env.planComplexity plan)) none) .added
      ((addVersion env id dsl plan version).eval e) := by
  simp only [addVersion, eval_lock, eval_read, setMu_ruleOr, found]
  exact (eval_saveRules env.writes _ _).of_data ⟨rfl, rfl, rfl, rfl⟩

end

inductive Op where
  | deploy (env : Env) (id dsl : String)
  | addVersion (env : Env) (id dsl : String) (plan : Bytes) (version : UInt64)
  | promote (env : Env) (id : String) (version : UInt64)
  | drain (id : String) (version : UInt64)
  | remove (env : Env) (id : String)
  | reload (compile : Compile)

/-- The result of an operation, and the engine after it. A restart always succeeds. -/
def perform (e : Engine) : Op → Option Reply × Engine
  | .deploy env id dsl => (deploy env id dsl).eval e
  | .addVersion env id dsl plan version => (addVersion env id dsl plan version).eval e
  | .promote env id version => (promote env id version).eval e
  | .drain id version => (drain id version).eval e
  | .remove env id => (remove env id).eval e
  | .reload compile => (some .absent, e.reload compile)

def Op.routine : Op → Option (Routine Engine Reply)
  | .deploy env id dsl => some (Engine.deploy env id dsl)
  | .addVersion env id dsl plan version => some (Engine.addVersion env id dsl plan version)
  | .promote env id version => some (Engine.promote env id version)
  | .drain id version => some (Engine.drain id version)
  | .remove env id => some (Engine.remove env id)
  | .reload _ => none

def Undone : Option Reply → Prop
  | none | some (.error _) | some .absent => True
  | _ => False

def Op.looksUp : Op → Bool
  | .promote .. | .drain .. | .remove .. => true
  | _ => false

inductive Performed (e : Engine) (out : Option Reply × Engine) : Op → Prop
  | rejected {env : Env} {id dsl err : String} (rejected : env.compile dsl id = .error err)
      (undone : Undone out.1) (same : Same e out.2) : Performed e out (.deploy env id dsl)
  | deployed {env : Env} {id dsl : String} {result : CompileResult} (compiled : env.compile dsl id = .ok result)
      (committed : Committed env.writes
        ({ e with nextVersion := e.nextVersion + 1 }.deployed id result.plan dsl (e.nextVersion + 1)
          (laneForScore result.complexity))
        (.deployed result.plan (e.nextVersion + 1)) out) : Performed e out (.deploy env id dsl)
  | nilPointer {env : Env} {id dsl : String} {plan : Bytes} {version : UInt64} (panicked : out.1 = none)
      (same : Same e out.2) : Performed e out (.addVersion env id dsl plan version)
  | appended {env : Env} {id dsl : String} {plan : Bytes} {version : UInt64}
      (missing : find version (e.ruleOr id (-1)).versions = .missing)
      (committed : Committed env.writes
        (e.added id plan dsl version (laneForScore (env.planComplexity plan)) none) .added out) :
      Performed e out (.addVersion env id dsl plan version)
  | replaced {env : Env} {id dsl : String} {plan : Bytes} {version : UInt64} {i : Nat} {vp : VersionedPlan}
      (found : find version (e.ruleOr id (-1)).versions = .at i vp)
      (committed : Committed env.writes
        (e.added id plan dsl version (laneForScore (env.planComplexity plan)) (some i)) .added out) :
      Performed e out (.addVersion env id dsl plan version)
  | promoted {env : Env} {id : String} {version : UInt64} {r : Rule} {i : Nat} {vp : VersionedPlan}
      (known : e.rules.lookup id = some r) (found : find version r.versions = .at i vp)
      (committed : Committed env.writes (e.setRule id { r with activeVersion := i }) .promoted out) :
      Performed e out (.promote env id version)
  | drained {id : String} {version : UInt64} {r : Rule} {i : Nat} {vp : VersionedPlan}
      (known : e.rules.lookup id = some r) (found : find version r.versions = .at i vp)
      (reply : out.1 = some (.drained [vp.activeExec])) (same : Same (e.drained id r i) out.2) :
      Performed e out (.drain id version)
  | removed {env : Env} {id : String} {r : Rule} (known : e.rules.lookup id = some r)
      (committed : Committed env.writes { e with rules := e.rules.erase id }
        (.removed (groupsOf r.versions)) out) : Performed e out (.remove env id)
  | missing {op : Op} (looksUp : op.looksUp = true) (undone : Undone out.1) (same : Same e out.2) : Performed e out op
  | reloaded {compile : Compile} (restarted : out.2 = e.reload compile) : Performed e out (.reload compile)

section

variable (e : Engine) (env : Env) (id dsl : String) (plan : Bytes) (version : UInt64)

theorem deploy_performed : Performed e ((deploy env id dsl).eval e) (.deploy env id dsl) := by
  cases compiled : env.compile dsl id with
  | error err =>
    refine .rejected compiled ?_ ?_
    all_goals simp only [deploy, compiled, eval_ret]
    · trivial
    · exact ⟨rfl, rfl, rfl, rfl⟩
  | ok result => exact .deployed compiled (deploy_committed e env id dsl compiled)

theorem addVersion_performed :
    Performed e ((addVersion env id dsl plan version).eval e) (.addVersion env id dsl plan version) := by
  cases found : find version (e.ruleOr id (-1)).versions with
  | nilPointer =>
    simp only [addVersion, eval_lock, eval_read, setMu_ruleOr, found]
    exact .nilPointer rfl ⟨rfl, rfl, rfl, rfl⟩
  | missing => exact .appended found (addVersion_missing e env id dsl plan version found)
  | «at» i vp =>
    simp only [addVersion, eval_lock, eval_read, setMu_ruleOr, found]
    exact .replaced found ((eval_saveRules env.writes _ _).of_data ⟨rfl, rfl, rfl, rfl⟩)

theorem promote_performed : Performed e ((promote env id version).eval e) (.promote env id version) := by
  simp only [promote, eval_lock, eval_read, setMu_rules]
  cases known : e.rules.lookup id with
  | none => exact .missing rfl trivial ⟨rfl, rfl, rfl, rfl⟩
  | some r =>
    cases found : find version r.versions with
    | nilPointer | missing =>
      simp only [found]
      exact .missing rfl trivial ⟨rfl, rfl, rfl, rfl⟩
    | «at» i vp =>
      simp only [found]
      exact .promoted known found ((eval_saveRules env.writes _ _).of_data ⟨rfl, rfl, rfl, rfl⟩)

theorem drain_performed : Performed e ((drain id version).eval e) (.drain id version) := by
  simp only [drain, eval_lock, eval_read, setMu_rules]
  cases known : e.rules.lookup id with
  | none => exact .missing rfl trivial ⟨rfl, rfl, rfl, rfl⟩
  | some r =>
    cases found : find version r.versions with
    | nilPointer | missing =>
      simp only [found]
      exact .missing rfl trivial ⟨rfl, rfl, rfl, rfl⟩
    | «at» i vp =>
      simp only [found, eval_unlock, eval_wait, eval_lock, eval_read, setMu_rules, known, eval_modify]
      refine .drained known found rfl ?_
      unfold drained
      split_ifs <;> exact ⟨rfl, rfl, rfl, rfl⟩

theorem remove_performed : Performed e ((remove env id).eval e) (.remove env id) := by
  simp only [remove, eval_lock, eval_read, setMu_rules]
  cases known : e.rules.lookup id with
  | none => exact .missing rfl trivial ⟨rfl, rfl, rfl, rfl⟩
  | some r =>
    simp only [eval_unlock]
    rcases eval_waitAll _ _ r.versions with through | panicked
    · rw [through]
      simp only [eval_lock, eval_read, setMu_ruleOr]
      have here : e.ruleOr id 0 = r := by simp [ruleOr, known]
      rw [here]
      exact .removed known ((eval_saveRules env.writes _ _).of_data ⟨rfl, rfl, rfl, rfl⟩)
    · rw [panicked]
      exact .missing rfl trivial ⟨rfl, rfl, rfl, rfl⟩

theorem performed (op : Op) : Performed e (e.perform op) op := by
  cases op with
  | deploy env id dsl => exact deploy_performed e env id dsl
  | addVersion env id dsl plan version => exact addVersion_performed e env id dsl plan version
  | promote env id version => exact promote_performed e env id version
  | drain id version => exact drain_performed e id version
  | remove env id => exact remove_performed e env id
  | reload compile => exact .reloaded rfl

end

theorem perform_persistPath (e : Engine) (op : Op) : (e.perform op).2.persistPath = e.persistPath := by
  cases performed e op with
  | rejected _ _ same | nilPointer _ same | missing _ _ same => exact same.persistPath
  | deployed _ committed | appended _ committed | replaced _ committed | promoted _ _ committed
  | removed _ committed => exact committed.persistPath
  | drained _ _ _ same => exact same.persistPath.trans (drained_persistPath ..)
  | reloaded restarted => rw [restarted, (reload_kept ..).1]

def history : Component Engine Op (Option Reply) where
  handle e op := ((e.perform op).2, [(e.perform op).1])

end Engine

end FlowRulZ
