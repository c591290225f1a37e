import FlowRulZ.Engine.Restart
import FlowRulZ.Engine.RulesLock

/-! # Storing plans and the traffic

Traffic goes to the active plan of a rule, which is known by its place.  `AddVersion` stores a
plan under a number that may be there, and `Drain` closes the gap that a version leaves.
-/

open List

namespace FlowRulZ

namespace Rule

def Indexed (r : Rule) : Prop :=
  r.activeVersion = -1 ∨ 0 ≤ r.activeVersion ∧ r.activeVersion < r.versions.length

end Rule

namespace Engine

def serving (e : Engine) (id : String) : Option (UInt64 × Bytes) :=
  (activePlan e id).map fun vp => (vp.version, vp.plan)

def SameTraffic (e e' : Engine) : Prop := ∀ id, e'.serving id = e.serving id

def FindsActive (e : Engine) (id : String) (version : UInt64) (vp : VersionedPlan) : Prop :=
  ∃ (r : Rule) (i : Nat), e.rules.lookup id = some r ∧ find version r.versions = .at i vp ∧ r.activeVersion = i

/-- What an action of a call does to the traffic. `AddVersion` keeps it, except where it stores other bytes in the place
of the active plan; `Drain` keeps it if it finds another version. -/
def Frame : Op → Engine → Engine → Prop
  | .addVersion _ id _ plan version, e, e' =>
    SameTraffic e e' ↔ e'.rules = e.rules ∨ ¬ ∃ vp, FindsActive e id version vp ∧ vp.plan ≠ plan
  | .drain id version, e, e' => (∃ vp, FindsActive e id version vp) ∨ SameTraffic e e'
  | _, _, _ => True

/-- An engine with the calls that were made since it was started, some of them under way. -/
structure Calls where
  sys : System Engine Reply
  ops : List Op

namespace Calls

def engine (w : Calls) : Engine := w.sys.state

inductive Event where
  | call (op : Op)
  | go (i : Nat)
  /-- A new process; the calls of the old one are lost. -/
  | restart (compile : Compile)

def step (w : Calls) : Event → Calls
  | .call op => op.routine.elim w fun p => ⟨⟨w.engine, w.sys.threads ++ [p]⟩, w.ops ++ [op]⟩
  | .go i => { w with sys := w.sys.go i }
  | .restart compile => ⟨⟨w.engine.reload compile, []⟩, []⟩

def component : Component Calls Event Unit where
  handle w event := (w.step event, [])

def start (compile : Compile) (path : String) (file : RulesFile) : Calls :=
  ⟨⟨new compile path file, []⟩, []⟩

end Calls

section

variable {r : Rule} {i : Nat} {vp : VersionedPlan}

theorem Indexed.cases (indexed : r.Indexed) :
    r.activeVersion = -1 ∨ ∃ j : Nat, r.activeVersion = j ∧ j < r.versions.length := by
  rcases indexed with absent | ⟨above, below⟩
  · exact .inl absent
  · exact .inr ⟨r.activeVersion.toNat, by omega, by omega⟩

theorem activePlan_absent (absent : r.activeVersion = -1) : r.activePlan = none := by
  simp [Rule.activePlan, absent]

section

variable (indexed : r.Indexed)
include indexed

theorem indexed_append : (r.append vp).Indexed := by
  rcases indexed with absent | ⟨above, below⟩
  · exact .inl absent
  · refine .inr ⟨above, ?_⟩
    simp only [Rule.append, length_append]
    omega

theorem activePlan_append : (r.append vp).activePlan = r.activePlan := by
  rcases Indexed.cases indexed with absent | ⟨j, active, inside⟩
  · rw [activePlan_absent absent]
    exact activePlan_absent absent
  · have same : (r.append vp).activeVersion = j := active
    rw [activePlan_at active, activePlan_at same, Rule.append, getElem?_append_left inside]

theorem indexed_replace : (r.replace i vp).Indexed := by
  simpa [Rule.Indexed, Rule.replace] using indexed

theorem activePlan_replace : (r.replace i vp).activePlan = if r.activeVersion = i then some vp else r.activePlan := by
  rcases Indexed.cases indexed with absent | ⟨j, active, there⟩
  · rw [activePlan_absent absent, if_neg (by omega)]
    exact activePlan_absent absent
  · have same : (r.replace i vp).activeVersion = j := active
    rw [activePlan_at active, activePlan_at same, Rule.replace, getElem?_set, active]
    by_cases here : i = j
    · simp [here, there]
    · rw [if_neg here, if_neg (by omega)]

theorem indexed_drop (inside : i < r.versions.length) : (r.drop i).Indexed := by
  have length : (r.versions.eraseIdx i).length = r.versions.length - 1 :=
    length_eraseIdx_of_lt inside
  unfold Rule.Indexed Rule.drop at *
  dsimp only
  split_ifs <;> omega

theorem activePlan_drop (other : r.activeVersion ≠ i) : (r.drop i).activePlan = r.activePlan := by
  rcases Indexed.cases indexed with absent | ⟨j, active, there⟩
  · rw [activePlan_absent absent]
    apply activePlan_absent
    simp only [Rule.drop]
    rw [if_neg other, if_neg (by omega), absent]
  · rw [activePlan_at active]
    rcases Nat.lt_or_ge i j with before | behind
    · have moved : (r.drop i).activeVersion = ((j - 1 : Nat) : Int) := by
        simp only [Rule.drop]
        omega
      rw [activePlan_at moved, Rule.drop, getElem?_eraseIdx, if_neg (by omega)]
      congr 2
      omega
    · have kept : (r.drop i).activeVersion = j := by
        simp only [Rule.drop]
        rw [if_neg other, if_neg (by omega), active]
      rw [activePlan_at kept, Rule.drop, getElem?_eraseIdx, if_pos (by omega)]

end

theorem indexed_loaded {versions : List (Option VersionedPlan)} (nonempty : versions ≠ []) (active : Int) :
    (loadedRule versions active).Indexed := by
  obtain ⟨i, inside, here, -⟩ := loadedRule_activeVersion nonempty active
  exact .inr (by rw [here]; simp [loadedRule, inside])

end

abbrev AllIndexed (rules : Rules) : Prop := EveryRule (fun _ r => r.Indexed) rules

section

variable {e e' : Engine} {id : String} {r : Rule} {plan : Bytes} {dsl : String} {version : UInt64} {lane : Lane}

theorem allIndexed_reload (compile : Compile) (e : Engine) : AllIndexed (e.reload compile).rules := by
  apply everyRule_reload
  intro rules _ rp _ nonempty group
  apply indexed_loaded
  intro empty
  have := congrArg List.length empty
  rw [loadVersions_length] at this
  exact nonempty (eq_nil_of_length_eq_zero this)

theorem indexed_ruleOr (indexed : AllIndexed e.rules) (id : String) : (e.ruleOr id (-1)).Indexed :=
  indexed.ruleOr (.inl rfl)

theorem serving_eq (e : Engine) (id : String) :
    e.serving id = (e.ruleOr id (-1)).activePlan.map fun vp => (vp.version, vp.plan) := by
  unfold serving activePlan ruleOr
  cases e.rules.lookup id with
  | none => rfl
  | some r => rfl

theorem SameTraffic.of_rules (same : e'.rules = e.rules) : SameTraffic e e' := by
  intro id
  rw [serving, activePlan, same]
  rfl

theorem sameTraffic_insert (rules : e'.rules = e.rules.insert id r) :
    SameTraffic e e' ↔ (r.activePlan.map fun vp => (vp.version, vp.plan)) = e.serving id := by
  have served (id' : String) : e'.serving id' =
      if id' = id then r.activePlan.map fun vp => (vp.version, vp.plan) else e.serving id' := by
    rw [serving, activePlan, rules]
    split_ifs with here
    · rw [here, AList.lookup_insert]
      rfl
    · rw [AList.lookup_insert_ne here]
      rfl
  constructor
  · intro same
    rw [← same id, served, if_pos rfl]
  · intro same id'
    rw [served]
    split_ifs with here
    · rw [here, same]
    · rfl

variable {vp : VersionedPlan}

theorem findsActive_iff : FindsActive e id version vp ↔
    ∃ i : Nat, find version (e.ruleOr id (-1)).versions = .at i vp ∧ (e.ruleOr id (-1)).activeVersion = i := by
  unfold FindsActive ruleOr
  cases e.rules.lookup id with
  | none => simp [find]
  | some r => simp

theorem frame_still (op : Op) (e e' : Engine) (same : e'.rules = e.rules) : Frame op e e' := by
  have traffic := SameTraffic.of_rules same
  cases op with
  | addVersion env id dsl plan version => exact ⟨fun _ => .inl same, fun _ => traffic⟩
  | drain id version => exact .inr traffic
  | deploy | promote | remove | reload => trivial

theorem frame_append (env : Env) (indexed : AllIndexed e.rules)
    (missing : find version (e.ruleOr id (-1)).versions = .missing) :
    Frame (.addVersion env id dsl plan version) e (e.added id plan dsl version lane none) := by
  have traffic : SameTraffic e (e.added id plan dsl version lane none) := by
    apply (sameTraffic_insert rfl).mpr
    rw [serving_eq]
    exact congrArg _ (activePlan_append (indexed_ruleOr indexed id))
  refine ⟨fun _ => .inr ?_, fun _ => traffic⟩
  rintro ⟨vp, active, _⟩
  obtain ⟨i, found, _⟩ := findsActive_iff.mp active
  rw [missing] at found
  cases found

variable {i : Nat}

theorem frame_replace (env : Env) (indexed : AllIndexed e.rules)
    (found : find version (e.ruleOr id (-1)).versions = .at i vp) :
    Frame (.addVersion env id dsl plan version) e (e.added id plan dsl version lane (some i)) := by
  have traffic : SameTraffic e (e.added id plan dsl version lane (some i)) ↔
      ¬ ∃ vp, FindsActive e id version vp ∧ vp.plan ≠ plan := by
    rw [sameTraffic_insert rfl, serving_eq]
    simp only [Option.elim_some, activePlan_replace (indexed_ruleOr indexed id), findsActive_iff, found]
    by_cases active : (e.ruleOr id (-1)).activeVersion = i
    · obtain ⟨there, number⟩ := find_at found
      rw [activePlan_at active, there]
      simp [number, active, eq_comm]
    · rw [if_neg active]
      simp only [true_iff]
      rintro ⟨vp', ⟨j, same, active'⟩, _⟩
      cases same
      exact active active'
  constructor
  · exact fun same => .inr (traffic.mp same)
  · rintro (same | other)
    · exact SameTraffic.of_rules same
    · exact traffic.mpr other

section

variable (indexed : AllIndexed e.rules) (known : e.rules.lookup id = some r) (found : find version r.versions = .at i vp)
include indexed known found

theorem frame_drained : Frame (.drain id version) e (e.drained id r i) := by
  by_cases active : r.activeVersion = i
  · exact .inl ⟨vp, r, i, known, found, active⟩
  · have kept := activePlan_drop (indexed id r known) active
    have served : (e.serving id) = r.activePlan.map fun vp => (vp.version, vp.plan) := by
      rw [serving, activePlan, known]
      rfl
    right
    unfold drained
    split_ifs with empty
    · intro id'
      by_cases here : id' = id
      · rw [here, served, ← kept, serving, activePlan, AList.lookup_erase, Rule.activePlan]
        split_ifs with outside
        · rfl
        · omega
      · rw [serving, activePlan, AList.lookup_erase_ne here]
        rfl
    · apply (sameTraffic_insert rfl).mpr
      rw [kept, served]

theorem allIndexed_drained : AllIndexed (e.drained id r i).rules := by
  have inside := (List.getElem?_eq_some_iff.mp (find_at found).1).1
  unfold drained
  split_ifs
  · exact indexed.erase id
  · exact indexed.insert (indexed_drop (indexed id r known) inside)

end

end

/-- The lock with the places of the active versions as its invariant. -/
abbrev placesLock : Discipline Engine Guarded Unit := guarding (fun data => AllIndexed data.1) fun _ _ => True

abbrev Framed (op : Op) (p : Routine Engine Reply) (held : Option Guarded) : Prop :=
  placesLock.Acts (Frame op) (fun _ _ => True) p held ()

section

variable {op : Op}

theorem makes_framed {e e' : Engine} (indexed : AllIndexed e'.rules) (frame : Frame op e e') :
    Makes (fun data => AllIndexed data.1) (fun (_ : Unit) _ => True) (Frame op) e e' () :=
  ⟨indexed, fun _ _ => trivial, trivial, frame⟩

theorem framed_addVersion (env : Env) (id dsl : String) (plan : Bytes) (version : UInt64) :
    Framed (.addVersion env id dsl plan version) (addVersion env id dsl plan version) none := by
  apply acts_lock (frame_still _)
  intro data
  apply acts_read (frame_still _)
  intro e current
  have ruleOr_eq {e' : Engine} (rules : e'.rules = data.1) : e'.ruleOr id (-1) = e.ruleOr id (-1) := by
    rw [ruleOr, rules, ← current]
    rfl
  cases found : find version (e.ruleOr id (-1)).versions with
  | nilPointer =>
    apply acts_unlock (frame_still _)
    trivial
  | missing =>
    refine acts_modify () (fun _ => rfl) ?_ fun data => acts_saved (frame_still _) _ trivial
    intro e' current' indexed
    rw [← ruleOr_eq (congrArg Prod.fst current')] at found
    exact makes_framed (indexed.insert (indexed_append (indexed_ruleOr indexed id))) (frame_append env indexed found)
  | «at» i vp =>
    refine acts_modify () (fun _ => rfl) ?_ fun data => acts_saved (frame_still _) _ trivial
    intro e' current' indexed
    rw [← ruleOr_eq (congrArg Prod.fst current')] at found
    exact makes_framed (indexed.insert (indexed_replace (indexed_ruleOr indexed id))) (frame_replace env indexed found)

theorem framed_op {p : Routine Engine Reply} (calls : op.routine = some p) : Framed op p none := by
  have ends (groups : List Nat) (reply : Reply) (_ : reply.gone = groups) : True := trivial
  cases op with
  | deploy env id dsl =>
    cases calls
    refine acts_deploy (fun _ => ()) (frame_still _) ends env id dsl fun e plan version lane indexed => ?_
    refine makes_framed (indexed.insert (.inr ?_)) trivial
    simp only [Rule.append, length_append, length_singleton]
    omega
  | addVersion env id dsl plan version =>
    cases calls
    exact framed_addVersion env id dsl plan version
  | promote env id version =>
    cases calls
    refine acts_promote (fun _ => ()) (frame_still _) ends env id version fun e r i vp known found indexed => ?_
    have inside := (List.getElem?_eq_some_iff.mp (find_at found).1).1
    exact makes_framed (indexed.insert (.inr ⟨Int.natCast_nonneg i, Int.ofNat_lt.mpr inside⟩)) trivial
  | drain id version =>
    cases calls
    exact acts_drain (fun _ => ()) (frame_still _) ends id version fun e r i vp known found indexed =>
      makes_framed (allIndexed_drained indexed known found) (frame_drained indexed known found)
  | remove env id =>
    cases calls
    exact acts_remove (fun _ => ()) (frame_still _) ends env id fun e indexed => makes_framed (indexed.erase id) trivial
  | reload => cases calls

end

/-- The calls under way keep the discipline. -/
def Calls.Orderly (w : Calls) : Prop :=
  ∃ held, placesLock.Orderly Frame (fun _ _ => True) w.ops w.sys held fun _ => ()

theorem orderly_empty {e : Engine} (indexed : AllIndexed e.rules) : Calls.Orderly ⟨⟨e, []⟩, []⟩ :=
  ⟨fun _ => none, indexed, rfl, nofun, nofun, nofun⟩

theorem orderly_step {w : Calls} (event : Calls.Event) (orderly : w.Orderly) : (w.step event).Orderly := by
  obtain ⟨held, orderly⟩ := orderly
  cases event with
  | call op =>
    change Calls.Orderly (op.routine.elim w _)
    cases calls : op.routine with
    | none => exact ⟨held, orderly⟩
    | some p =>
      obtain ⟨held', _, spawned⟩ := orderly.spawn (framed_op calls) trivial
      exact ⟨held', spawned⟩
  | go i =>
    obtain ⟨held', _, gone⟩ := orderly.go i
    exact ⟨held', gone⟩
  | restart compile => exact orderly_empty (allIndexed_reload compile w.engine)

/-- Whatever calls are made and however they are interleaved, the active version of a rule is one
of its versions or none, and a call that stores or drains a plan switches traffic only if it
finds the active one. -/
theorem traffic_kept (compile : Compile) (path : String) (file : RulesFile)
    (events : List Calls.Event) :
    let w := Calls.component.after (Calls.start compile path file) events
    AllIndexed w.engine.rules ∧ ∀ i op, w.ops[i]? = some op → Frame op w.engine (w.step (.go i)).engine := by
  intro w
  have orderly : w.Orderly := by
    apply Component.after_of_invariant (P := Calls.Orderly)
    · exact orderly_empty (allIndexed_reload compile { persistPath := path, file })
    · exact fun _ => orderly_step _
  obtain ⟨held, orderly⟩ := orderly
  exact ⟨orderly.inv, fun i op called => orderly.does called fun e => frame_still op e e rfl⟩

/-- A version is deployed, and another plan is stored under its number. -/
def overwriting : List Calls.Event :=
  let env : Env := { compile := fun _ _ => .ok ⟨[1], 0⟩ }
  .call (.deploy env "r" "") :: List.replicate 5 (.go 0) ++
    .call (.addVersion env "r" "" [2] 1) :: List.replicate 3 (.go 1)

/-- The other plan is active at once. -/
theorem overwriting_switches :
    let start := Calls.start (fun _ _ => .error "") "" none
    (Calls.component.after start (overwriting.take 8)).engine.serving "r" = some (1, [1]) ∧
      (Calls.component.after start overwriting).engine.serving "r" = some (1, [2]) := by
  decide

end Engine

end FlowRulZ
