import FlowRulZ.Engine.History

/-! # Version numbers

`Deploy` counts its versions, `AddVersion` takes the number it is given, and the counter
does not follow.  A deploy may give a number that the rule has already; then the search for
that number finds the older version.
-/

namespace FlowRulZ.Engine

open List

def numbers (r : Rule) : List UInt64 := r.versions.filterMap fun v => v.map (·.version)

def Distinct (e : Engine) : Prop := ∀ id r, e.rules.lookup id = some r → (numbers r).Nodup

structure Content where
  dsl : String
  plan : Bytes
  deriving Repr, DecidableEq

abbrev Named := String → UInt64 → Option Content

def Named.set (named : Named) (id : String) (version : UInt64) (content : Content) : Named :=
  fun id' version' => if id' = id ∧ version' = version then some content else named id' version'

def record (e : Engine) (named : Named) : Op → Named
  | .deploy env id dsl =>
    match env.compile dsl id with
    | .error _ => named
    | .ok result => named.set id (e.nextVersion + 1) ⟨dsl, result.plan⟩
  | .addVersion _ id dsl plan version => named.set id version ⟨dsl, plan⟩
  | .reload compile => fun id version =>
    (named id version).map fun content =>
      match compile content.dsl id with
      | .error _ => content
      | .ok result => ⟨content.dsl, result.plan⟩
  | _ => named

/-- What was most recently deployed or added under each number. -/
def latest (e : Engine) (named : Named) : List Op → Named
  | [] => named
  | op :: ops => latest (e.perform op).2 (e.record named op) ops

def Fresh (e : Engine) : Op → Prop
  | .deploy env id dsl => (∃ result, env.compile dsl id = .ok result) →
      ∀ r, e.rules.lookup id = some r → e.nextVersion + 1 ∉ numbers r
  | _ => True

def Op.writes : Op → Bool
  | .deploy env .. | .addVersion env .. | .promote env .. | .remove env .. => env.writes
  | _ => true

/-- No nil pointer is met, and a file that is written is written. -/
def Completes (e : Engine) (op : Op) : Prop := (e.perform op).1 ≠ none ∧ op.writes = true

/-- A version that is promoted is the one that its number stands for. -/
def PromotesLatest (start : Engine) (ops : List Op) : Prop :=
  ∀ before env id version later, ops = before ++ Op.promote env id version :: later →
    ((history.after start before).perform (.promote env id version)).1 = some .promoted →
    ∃ vp, activePlan (history.after start (before ++ [Op.promote env id version])) id = some vp ∧ vp.version = version ∧
      latest start (fun _ _ => none) before id version = some ⟨vp.dsl, vp.plan⟩

section

variable {r : Rule} {vp old : VersionedPlan} {i : Nat} {version : UInt64}

theorem numbers_append (r : Rule) (vp : VersionedPlan) : numbers (r.append vp) = numbers r ++ [vp.version] := by
  simp [numbers, Rule.append]

theorem numbers_replace (there : r.versions[i]? = some (some old)) (same : vp.version = old.version) :
    numbers (r.replace i vp) = numbers r := by
  have listed (versions : List (Option VersionedPlan)) :
      (versions.filterMap fun v => v.map (·.version)) = (versions.map (Option.map (·.version))).filterMap id := by
    simp [filterMap_map]
  unfold numbers Rule.replace
  rw [listed, listed, map_set]
  congr 1
  apply ext_getElem?
  intro j
  rw [getElem?_set]
  split_ifs with here inside
  · subst here
    simp [there, same]
  · subst here
    simp at inside
    simp [inside]
  · rfl

theorem mem_numbers : version ∈ numbers r ↔ ∃ vp, some vp ∈ r.versions ∧ vp.version = version := by
  simp [numbers]

theorem lt_of_number (distinct : (numbers r).Nodup) {j : Nat} (here : r.versions[i]? = some (some vp))
    (there : r.versions[j]? = some (some old)) (same : vp.version = old.version) : ¬ i < j := by
  intro before
  have apart := pairwise_iff_getElem.mp (pairwise_filterMap.mp distinct)
  obtain ⟨small, first⟩ := List.getElem?_eq_some_iff.mp here
  obtain ⟨large, second⟩ := List.getElem?_eq_some_iff.mp there
  exact apart i j small large before vp.version (by simp [first]) old.version (by simp [second]) same

theorem numbers_loaded (compile : Compile) (id : String) (activeVersion : Int) (versions : List VersionPersistence) :
    ∀ group, (numbers (loadedRule (loadVersions compile id group versions) activeVersion)).Sublist
      (versions.map (·.version)) := by
  unfold numbers loadedRule
  induction versions with
  | nil => exact fun group => List.Sublist.slnil
  | cons v versions ih =>
    intro group
    cases built : loadVersion compile id group v with
    | none =>
      simp only [loadVersions, built]
      exact (ih (group + 1)).cons _
    | some vp =>
      have same : vp.version = v.version := by
        unfold loadVersion at built
        split at built
        · cases built
        · cases built
          rfl
      simp only [loadVersions, built, filterMap_cons, Option.map_some, same]
      exact (ih (group + 1)).cons_cons _

end

def DistinctFile (file : RulesFile) : Prop :=
  ∀ rules, file = some rules → ∀ rp ∈ rules, (rp.versions.map (·.version)).Nodup

/-- Neither the rules nor the file have a number twice. -/
structure Unambiguous (e : Engine) : Prop where
  rules : EveryRule (fun _ r => (numbers r).Nodup) e.rules
  file : DistinctFile e.file

section

variable {e e' : Engine} {op : Op} {named : Named}

theorem Unambiguous.same (unambiguous : Unambiguous e) (same : Same e e') : Unambiguous e' where
  rules := same.rules ▸ unambiguous.rules
  file := same.file ▸ unambiguous.file

theorem distinctFile_persist (rules : EveryRule (fun _ r => (numbers r).Nodup) e.rules) :
    DistinctFile (persist e.rules) := by
  intro written persisted rp listed
  obtain ⟨r, known, stored⟩ := of_mem_persist persisted listed
  obtain ⟨vps, whole, written⟩ := persistRule_eq_some.mp stored
  have nodup : (numbers r).Nodup := rules rp.id r known
  rw [numbers, whole] at nodup
  rw [written]
  simpa [Function.comp_def, VersionedPlan.stored] using nodup

theorem Committed.unambiguous {writes : Bool} {changed : Engine} {reply : Reply} {out : Option Reply × Engine}
    (committed : Committed writes changed reply out) (before : Unambiguous changed) : Unambiguous out.2 := by
  refine ⟨committed.rules ▸ before.rules, ?_⟩
  rcases committed.ended with ⟨-, -, -, file⟩ | ⟨-, ⟨-, file⟩ | ⟨-, written, persisted, file⟩⟩
  · exact file ▸ before.file
  · exact file ▸ before.file
  · rw [file, ← persisted]
    split_ifs
    · exact distinctFile_persist before.rules
    · exact before.file

variable {id : String} {version : UInt64}

theorem notMem_ruleOr {activeVersion : Int} (fresh : ∀ r, e.rules.lookup id = some r → version ∉ numbers r) :
    version ∉ numbers (e.ruleOr id activeVersion) := by
  unfold ruleOr
  cases known : e.rules.lookup id with
  | none => exact not_mem_nil
  | some r => exact fresh r known

variable {r : Rule}

theorem nodup_append (distinct : (numbers r).Nodup) {vp : VersionedPlan}
    (fresh : vp.version ∉ numbers r) : (numbers (r.append vp)).Nodup := by
  rw [numbers_append]
  exact List.nodup_append.mpr ⟨distinct, List.nodup_singleton _,
    fun v there v' single same => fresh (mem_singleton.mp single ▸ same ▸ there)⟩

theorem notMem_of_missing (missing : find version r.versions = .missing) : version ∉ numbers r := by
  intro there
  obtain ⟨vp, listed, same⟩ := mem_numbers.mp there
  obtain ⟨_, here, other⟩ := find_missing.mp missing _ listed
  cases here
  exact other same

theorem Unambiguous.drained (unambiguous : Unambiguous e)
    (known : e.rules.lookup id = some r) (i : Nat) : Unambiguous (e.drained id r i) := by
  unfold Engine.drained
  split_ifs
  · exact ⟨unambiguous.rules.erase id, unambiguous.file⟩
  · refine ⟨unambiguous.rules.insert ?_, unambiguous.file⟩
    exact (unambiguous.rules id r known).sublist ((eraseIdx_sublist r.versions i).filterMap _)

/-- The numbers stay distinct if a deploy gives a new one. -/
theorem unambiguous_perform (before : Unambiguous e) (fresh : Fresh e op) : Unambiguous (e.perform op).2 := by
  have rule (id : String) (activeVersion : Int) : (numbers (e.ruleOr id activeVersion)).Nodup :=
    before.rules.ruleOr nodup_nil
  cases performed e op with
  | rejected _ _ same | nilPointer _ same | missing _ _ same => exact before.same same
  | deployed compiled committed =>
    apply committed.unambiguous
    refine ⟨before.rules.insert ?_, before.file⟩
    exact nodup_append (rule _ 0) (notMem_ruleOr (fresh ⟨_, compiled⟩))
  | appended missing committed =>
    apply committed.unambiguous
    refine ⟨before.rules.insert ?_, before.file⟩
    exact nodup_append (rule _ (-1)) (notMem_of_missing missing)
  | replaced found committed =>
    apply committed.unambiguous
    refine ⟨before.rules.insert ?_, before.file⟩
    obtain ⟨there, same⟩ := find_at found
    simp only [Option.elim_some]
    rw [numbers_replace there same.symm]
    exact rule _ (-1)
  | @promoted _ id _ r _ _ known _ committed =>
    apply committed.unambiguous
    exact ⟨before.rules.insert (before.rules id r known), before.file⟩
  | drained known _ _ same => exact (before.drained known _).same same
  | removed _ committed =>
    apply committed.unambiguous
    exact ⟨before.rules.erase _, before.file⟩
  | reloaded restarted =>
    rw [restarted]
    refine ⟨everyRule_reload _ e ?_, ?_⟩
    · intro rules file rp listed _ group
      exact (before.file rules file rp listed).sublist (numbers_loaded _ rp.id rp.activeVersion rp.versions group)
    · rw [(reload_kept ..).2]
      exact before.file

theorem fresh_of_distinct (distinct : Distinct (e.perform op).2) : Fresh e op := by
  cases op with
  | deploy env id dsl =>
    rintro ⟨result, compiled⟩ r known there
    have stored : ∃ r', (e.perform (.deploy env id dsl)).2.rules.lookup id = some r' ∧
        numbers r' = numbers r ++ [e.nextVersion + 1] := by
      rw [perform, (deploy_committed e env id dsl compiled).rules]
      refine ⟨_, AList.lookup_insert _, ?_⟩
      have here : e.ruleOr id 0 = r := by simp [ruleOr, known]
      rw [← here]
      exact numbers_append ..
    obtain ⟨r', known', listed⟩ := stored
    have twice := distinct id r' known'
    rw [listed, List.nodup_append] at twice
    exact twice.2.2 _ there _ (mem_singleton_self _) rfl
  | _ => trivial

theorem always_distinct (before : Unambiguous e) (ops : List Op) :
    history.Always Distinct e ops ↔ history.Throughout Fresh e ops := by
  induction ops generalizing e with
  | nil => exact ⟨fun _ => trivial, fun _ => before.rules⟩
  | cons op ops ih =>
    constructor
    · rintro ⟨-, later⟩
      have fresh := fresh_of_distinct later.first
      exact ⟨fresh, (ih (unambiguous_perform before fresh)).mp later⟩
    · rintro ⟨fresh, later⟩
      exact ⟨before.rules, (ih (unambiguous_perform before fresh)).mpr later⟩

def NamedRule (named : Named) (id : String) (r : Rule) : Prop :=
  ∀ vp, some vp ∈ r.versions → named id vp.version = some ⟨vp.dsl, vp.plan⟩

def NamedFile (named : Named) (file : RulesFile) : Prop :=
  ∀ rules, file = some rules → ∀ rp ∈ rules, ∀ v ∈ rp.versions, ∃ plan, named rp.id v.version = some ⟨v.dsl, plan⟩

structure Recorded (e : Engine) (named : Named) : Prop where
  unambiguous : Unambiguous e
  rules : EveryRule (NamedRule named) e.rules
  file : NamedFile named e.file
  unwritten : e.persistPath = "" → e.file = none

theorem Recorded.same (recorded : Recorded e named) (same : Same e e') : Recorded e' named where
  unambiguous := recorded.unambiguous.same same
  rules := same.rules ▸ recorded.rules
  file := same.file ▸ recorded.file
  unwritten := by
    rw [same.persistPath, same.file]
    exact recorded.unwritten

theorem namedFile_persist (rules : EveryRule (NamedRule named) e.rules) : NamedFile named (persist e.rules) := by
  intro written persisted rp listed v there
  obtain ⟨r, known, stored⟩ := of_mem_persist persisted listed
  obtain ⟨vps, whole, written⟩ := persistRule_eq_some.mp stored
  rw [written] at there
  obtain ⟨vp, member, rfl⟩ := mem_map.mp there
  exact ⟨vp.plan, rules rp.id r known vp (by simp [whole, member])⟩

/-- A change that is written is on record, whatever the file was. -/
theorem Committed.recorded {writes : Bool} {changed : Engine} {reply : Reply} {out : Option Reply × Engine}
    (committed : Committed writes changed reply out) (written : writes = true) (answered : out.1 ≠ none)
    (unambiguous : Unambiguous out.2) (rules : EveryRule (NamedRule named) changed.rules)
    (unwritten : changed.persistPath = "" → changed.file = none) : Recorded out.2 named := by
  refine ⟨unambiguous, committed.rules ▸ rules, ?_, ?_⟩
  · rcases committed.ended with ⟨panicked, -⟩ | ⟨-, ⟨path, file⟩ | ⟨-, _, persisted, file⟩⟩
    · exact absurd panicked answered
    · rw [file, unwritten path]
      exact nofun
    · rw [file, if_pos written, ← persisted]
      exact namedFile_persist rules
  · intro path
    rw [committed.persistPath] at path
    rcases committed.ended with ⟨panicked, -⟩ | ⟨-, ⟨-, file⟩ | ⟨persistent, -⟩⟩
    · exact absurd panicked answered
    · exact file.trans (unwritten path)
    · exact absurd path persistent

theorem NamedRule.set {id id' : String} {content : Content}
    (rule : NamedRule named id' r) (other : id' = id → version ∉ numbers r) :
    NamedRule (named.set id version content) id' r := by
  intro vp there
  unfold Named.set
  split_ifs with here
  · exact absurd (mem_numbers.mpr ⟨vp, there, here.2⟩) (other here.1)
  · exact rule vp there

theorem NamedRule.append {vp : VersionedPlan} (rule : NamedRule named id r) (fresh : vp.version ∉ numbers r) :
    NamedRule (named.set id vp.version ⟨vp.dsl, vp.plan⟩) id (r.append vp) := by
  intro vp' there
  rcases mem_append.mp there with old | new
  · exact rule.set (fun _ => fresh) vp' old
  · cases mem_singleton.mp new
    simp [Named.set]

theorem NamedRule.replace {vp old : VersionedPlan} {i : Nat}
    (rule : NamedRule named id r) (distinct : (numbers r).Nodup) (here : r.versions[i]? = some (some old))
    (same : old.version = vp.version) :
    NamedRule (named.set id vp.version ⟨vp.dsl, vp.plan⟩) id (r.replace i vp) := by
  intro vp' there
  obtain ⟨j, found⟩ := mem_iff_getElem?.mp there
  rw [Rule.replace, getElem?_set] at found
  unfold Named.set
  split_ifs at found with place inside
  · cases found
    simp
  · have apart : vp'.version ≠ vp.version := by
      intro equal
      have notBefore := lt_of_number distinct here found (same.trans equal.symm)
      have notAfter := lt_of_number distinct found here (equal.trans same.symm)
      exact place (by omega)
    rw [if_neg fun both => apart both.2]
    exact rule vp' (mem_of_getElem? found)

theorem everyRule_set {content : Content}
    (rules : EveryRule (NamedRule named) e.rules) (rule : NamedRule (named.set id version content) id r) :
    EveryRule (NamedRule (named.set id version content)) (e.rules.insert id r) := by
  intro id' r' known
  rcases Table.of_insert known with ⟨rfl, rfl⟩ | ⟨other, old⟩
  · exact rule
  · exact (rules id' r' old).set fun same => absurd same other

theorem Recorded.drained (recorded : Recorded e named)
    (known : e.rules.lookup id = some r) (i : Nat) : Recorded (e.drained id r i) named := by
  refine ⟨recorded.unambiguous.drained known i, ?_, drained_file e id r i ▸ recorded.file, ?_⟩
  · unfold Engine.drained
    split_ifs
    · exact recorded.rules.erase id
    · apply recorded.rules.insert
      intro vp there
      exact recorded.rules id r known vp (mem_of_mem_eraseIdx there)
  · rw [drained_file, drained_persistPath]
    exact recorded.unwritten

/-- A restart compiles the texts, and their numbers stand for what comes of it. -/
theorem Recorded.reload (recorded : Recorded e named) (compile : Compile)
    (unambiguous : Unambiguous (e.reload compile)) :
    Recorded (e.reload compile) (e.record named (.reload compile)) := by
  refine ⟨unambiguous, everyRule_reload compile e ?_, ?_, ?_⟩
  · intro rules file rp listed _ group vp there
    obtain ⟨v, stored, group, built⟩ := of_mem_loadVersions rp.versions group there
    obtain ⟨plan, meaning⟩ := recorded.file rules file rp listed v stored
    unfold loadVersion at built
    split at built
    · cases built
    · rename_i result compiled
      cases built
      simp [record, meaning, compiled]
  · rw [(reload_kept ..).2]
    intro rules file rp listed v stored
    obtain ⟨plan, meaning⟩ := recorded.file rules file rp listed v stored
    simp only [record, meaning, Option.map_some]
    split <;> exact ⟨_, rfl⟩
  · rw [(reload_kept ..).1, (reload_kept ..).2]
    exact recorded.unwritten

theorem record_of_looksUp (looksUp : op.looksUp = true) : e.record named op = named := by
  cases op with
  | promote | drain | remove => rfl
  | deploy | addVersion | reload => cases looksUp

theorem recorded_perform (before : Recorded e named) (fresh : Fresh e op) (completes : Completes e op) :
    Recorded (e.perform op).2 (e.record named op) := by
  have unambiguous := unambiguous_perform before.unambiguous fresh
  have rule (id : String) (activeVersion : Int) : NamedRule named id (e.ruleOr id activeVersion) :=
    before.rules.ruleOr nofun
  have nodup (id : String) (activeVersion : Int) : (numbers (e.ruleOr id activeVersion)).Nodup :=
    before.unambiguous.rules.ruleOr nodup_nil
  obtain ⟨answered, writes⟩ := completes
  cases performed e op with
  | rejected rejected _ same =>
    simp only [record, rejected]
    exact before.same same
  | deployed compiled committed =>
    simp only [record, compiled]
    apply committed.recorded writes answered unambiguous _ before.unwritten
    apply everyRule_set before.rules
    exact (rule _ 0).append (notMem_ruleOr (fresh ⟨_, compiled⟩))
  | nilPointer panicked => exact absurd panicked answered
  | appended missing committed =>
    apply committed.recorded writes answered unambiguous _ before.unwritten
    apply everyRule_set before.rules
    exact (rule _ (-1)).append (notMem_of_missing missing)
  | replaced found committed =>
    apply committed.recorded writes answered unambiguous _ before.unwritten
    apply everyRule_set before.rules
    obtain ⟨there, same⟩ := find_at found
    exact (rule _ (-1)).replace (nodup _ (-1)) there same
  | @promoted _ id _ r _ _ known _ committed =>
    apply committed.recorded writes answered unambiguous _ before.unwritten
    exact before.rules.insert (before.rules id r known)
  | drained known _ _ same =>
    exact (before.drained known _).same same
  | removed _ committed =>
    apply committed.recorded writes answered unambiguous _ before.unwritten
    exact before.rules.erase _
  | missing looksUp _ same =>
    rw [record_of_looksUp looksUp]
    exact before.same same
  | reloaded restarted =>
    exact before.reload _ unambiguous

theorem recorded_after (before : Recorded e named) {ops : List Op} (fresh : history.Throughout Fresh e ops)
    (completes : history.Throughout Completes e ops) :
    Recorded (history.after e ops) (latest e named ops) := by
  induction ops generalizing e named with
  | nil => exact before
  | cons op ops ih => exact ih (recorded_perform before fresh.1 completes.1) fresh.2 completes.2

theorem promoted_latest (before : Recorded e named) {env : Env}
    (promoted : (e.perform (.promote env id version)).1 = some .promoted) :
    ∃ vp, activePlan (e.perform (.promote env id version)).2 id = some vp ∧ vp.version = version ∧
      named id version = some ⟨vp.dsl, vp.plan⟩ := by
  cases performed e (.promote env id version) with
  | @promoted _ _ _ r i vp known found committed =>
    obtain ⟨there, rfl⟩ := find_at found
    refine ⟨vp, ?_, rfl, before.rules id r known vp (mem_of_getElem? there)⟩
    obtain ⟨inside, here⟩ := List.getElem?_eq_some_iff.mp there
    rw [activePlan, committed.rules]
    simp [setRule, Rule.activePlan, here, inside]
  | missing _ undone =>
    rw [promoted] at undone
    exact undone.elim

end

theorem recorded_new (path : String) : Recorded { persistPath := path } fun _ _ => none :=
  ⟨⟨everyRule_empty, nofun⟩, everyRule_empty, nofun, fun _ => rfl⟩

/-- As long as each deploy counts to a number that its rule does not have, and only so long, the numbers are distinct. A
number then stands for what was last deployed or added under it. -/
theorem number_names_one_plan (path : String) (ops : List Op) : (history.Always Distinct { persistPath := path } ops ↔
        history.Throughout Fresh { persistPath := path } ops) ∧
      (history.Throughout Fresh { persistPath := path } ops → history.Throughout Completes { persistPath := path } ops →
        PromotesLatest { persistPath := path } ops) := by
  refine ⟨always_distinct (recorded_new path).unambiguous ops, ?_⟩
  intro fresh completes before env id version later split promoted
  subst split
  rw [Component.after_concat]
  exact promoted_latest (recorded_after (recorded_new path) fresh.of_append completes.of_append) promoted

def textPlan : Compile := fun dsl _ => .ok ⟨dsl.toList.map fun c => c.toNat.toUInt8, 1⟩

/-- Two deploys, and the first version is promoted again. -/
theorem promotes_first : PromotesLatest { persistPath := "" }
      [.deploy { compile := textPlan } "a" "x", .deploy { compile := textPlan } "a" "y",
        .promote { compile := textPlan } "a" 1] := by
  apply (number_names_one_plan "" _).2
  · refine ⟨fun _ => nofun, ?_, trivial, trivial⟩
    rintro - r known
    cases known
    decide
  · exact ⟨⟨nofun, rfl⟩, ⟨nofun, rfl⟩, ⟨nofun, rfl⟩, trivial⟩

/-- A version is added under the number that the next deploy counts to. Promoting that number makes the older version
active. -/
theorem deploy_counts_to_added : ¬ Distinct (history.after { persistPath := "" }
        [.addVersion { compile := textPlan } "a" "x" [120] 1, .deploy { compile := textPlan } "a" "y"]) ∧
      ¬ PromotesLatest { persistPath := "" }
        [.addVersion { compile := textPlan } "a" "x" [120] 1, .deploy { compile := textPlan } "a" "y",
          .promote { compile := textPlan } "a" 1] := by
  constructor
  · intro distinct
    have twice := distinct "a" _ rfl
    revert twice
    decide
  · intro latest
    obtain ⟨vp, active, -, meaning⟩ := latest [_, _] _ _ _ [] rfl rfl
    cases active
    have texts := congrArg (Option.map (·.dsl)) meaning
    revert texts
    decide

end FlowRulZ.Engine
