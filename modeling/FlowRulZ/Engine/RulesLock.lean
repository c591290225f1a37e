import FlowRulZ.Engine.Rules
import FlowRulZ.Lib.Discipline

/-! # The lock of the rules

What the write lock of an engine protects, and how a routine is checked against it, action by
action.  For the operations of an engine only their changes in the lock are left to check.
-/

namespace FlowRulZ.Engine

/-- What the write lock protects: the rules, and how many wait groups there are. -/
abbrev Guarded := Rules × Nat

def guarded (e : Engine) : Guarded := (e.rules, e.allocated)

variable {K R : Type}

/-- The lock with an invariant of what it protects, and facts about it that stay true. -/
def guarding (inv : Guarded → Prop) (knows : K → Guarded → Prop) : Discipline Engine Guarded K where
  inv e := inv e.guarded
  locked e := e.mu.writer
  data e := e.guarded
  knows fact e := knows fact e.guarded

section

variable {inv : Guarded → Prop} {knows : K → Guarded → Prop} {post : K → R → Prop}
  {rel : Engine → Engine → Prop} {held : Option Guarded} {data : Guarded} {fact : K}
  {next : Unit → Routine Engine R}

/-- An action that leaves the rules and the write lock alone. -/
theorem acts_still {guard : Engine → Bool} {update : Engine → Engine} {next : Engine → Routine Engine R}
    (still : ∀ e e', e'.rules = e.rules → rel e e') (writer : ∀ e, (update e).mu.writer = e.mu.writer)
    (same : ∀ e, (update e).guarded = e.guarded)
    (rest : ∀ e, (guarding inv knows).Holds held e → guard e = true →
      (guarding inv knows).Acts rel post (next e) held fact) :
    (guarding inv knows).Acts rel post (.step guard update next) held fact := by
  intro e holds_inv holds known passes
  refine ⟨still e _ (congrArg Prod.fst (same e)), held, fact, ⟨?_, ?_, ?_⟩, ?_, rest e holds passes⟩
  · change inv (update e).guarded
    rw [same e]
    exact holds_inv
  · intro fact' known'
    change knows fact' (update e).guarded
    rw [same e]
    exact known'
  · cases held with
    | none => exact ⟨writer e, same e⟩
    | some data =>
      obtain ⟨locked, current⟩ := holds data rfl
      exact ⟨(writer e).trans locked, (same e).trans current⟩
  · change knows fact (update e).guarded
    rw [same e]
    exact known

variable (still : ∀ e e', e'.rules = e.rules → rel e e')

include still

theorem acts_lock (rest : ∀ data, (guarding inv knows).Acts rel post (next ()) (some data) fact) :
    (guarding inv knows).Acts rel post (lock >>= next) none fact := by
  intro e holds_inv _ known passes
  have free : e.mu.writer = false ∧ e.mu.readers = 0 := by simpa using passes
  exact ⟨still _ _ rfl, some e.guarded, fact, ⟨holds_inv, fun _ known => known, free.1, rfl, rfl⟩, known, rest _⟩

theorem acts_unlock (rest : (guarding inv knows).Acts rel post (next ()) none fact) :
    (guarding inv knows).Acts rel post (unlock >>= next) (some data) fact := by
  intro e holds_inv _ known _
  exact ⟨still _ _ rfl, none, fact, ⟨holds_inv, fun _ known => known, trivial⟩, known, rest⟩

theorem acts_read {A : Type} {f : Engine → A} {next : A → Routine Engine R}
    (rest : ∀ e, e.guarded = data → (guarding inv knows).Acts rel post (next (f e)) (some data) fact) :
    (guarding inv knows).Acts rel post (Routine.read f >>= next) (some data) fact := by
  apply acts_still still (fun _ => rfl) (fun _ => rfl)
  intro e holds _
  exact rest e (holds data rfl).2

theorem acts_wait (group : Nat) (rest : (guarding inv knows).Acts rel post (next ()) held fact) :
    (guarding inv knows).Acts rel post (wait group >>= next) held fact :=
  acts_still still (fun _ => rfl) (fun _ => rfl) fun _ _ _ => rest

theorem acts_waitAll (versions : List (Option VersionedPlan))
    (rest : (guarding inv knows).Acts rel post (next ()) held fact) :
    (guarding inv knows).Acts rel post (waitAll versions >>= next) held fact := by
  induction versions with
  | nil => exact rest
  | cons v versions ih =>
    cases v with
    | none => trivial
    | some vp =>
      rw [waitAll, bind_assoc]
      exact acts_wait still vp.activeExec ih

theorem acts_saveRules (writes : Bool) (rest : (guarding inv knows).Acts rel post (next ()) (some data) fact) :
    (guarding inv knows).Acts rel post (saveRules writes >>= next) (some data) fact := by
  rw [saveRules, bind_assoc]
  apply acts_read still
  intro e _
  by_cases path : e.persistPath = ""
  · rw [if_pos path]
    exact rest
  · rw [if_neg path]
    intro e' _ holds _ passes
    have locked : e'.mu.writer = true := (holds data rfl).1
    simp [locked] at passes

theorem acts_reply {reply : R} (ends : post fact reply) :
    (guarding inv knows).Acts rel post (unlock >>= fun _ => .ret reply) (some data) fact :=
  acts_unlock still ends

theorem acts_saved (writes : Bool) {reply : R} (ends : post fact reply) :
    (guarding inv knows).Acts rel post (saveRules writes >>= fun _ => unlock >>= fun _ => .ret reply)
      (some data) fact :=
  acts_saveRules still writes (acts_reply still ends)

theorem acts_version {id : String} {version : UInt64} {absent missing : R} {nil : Routine Engine R}
    {body : Rule → Nat → VersionedPlan → Routine Engine R} (noRule : post fact absent)
    (noVersion : post fact missing) (panics : ∀ data, (guarding inv knows).Acts rel post nil (some data) fact)
    (found : ∀ (data : Guarded) r i vp, data.1.lookup id = some r → find version r.versions = .at i vp →
      (guarding inv knows).Acts rel post (body r i vp) (some data) fact) :
    (guarding inv knows).Acts rel post (do
        lock
        match ← .read (·.rules.lookup id) with
        | none =>
          unlock
          return absent
        | some r =>
          match find version r.versions with
          | .nilPointer => nil
          | .missing =>
            unlock
            return missing
          | .at i vp => body r i vp) none fact := by
  apply acts_lock still
  intro data
  apply acts_read still
  rintro e rfl
  cases known : e.rules.lookup id with
  | none => exact acts_reply still noRule
  | some r =>
    cases place : find version r.versions with
    | nilPointer =>
      simp only [place]
      exact panics e.guarded
    | missing =>
      simp only [place]
      exact acts_reply still noVersion
    | «at» i vp =>
      simp only [place]
      exact found e.guarded r i vp known place

omit still in
theorem acts_modify {update : Engine → Engine} (fact' : K) (mu : ∀ e, (update e).mu = e.mu)
    (changed : ∀ e, e.guarded = data → inv e.guarded →
      inv (update e).guarded ∧ (∀ fact, knows fact e.guarded → knows fact (update e).guarded) ∧
        knows fact' (update e).guarded ∧ rel e (update e))
    (rest : ∀ data, (guarding inv knows).Acts rel post (next ()) (some data) fact') :
    (guarding inv knows).Acts rel post (Routine.modify update >>= next) (some data) fact := by
  intro e holds_inv holds known _
  obtain ⟨locked, current⟩ := holds data rfl
  obtain ⟨kept, facts, known', related⟩ := changed e current holds_inv
  refine ⟨related, some (update e).guarded, fact', ⟨kept, facts, ?_, rfl⟩, known', rest _⟩
  change (update e).mu.writer = true
  rw [mu]
  exact locked

end

/-! ## The operations -/

section

variable {inv : Guarded → Prop} {knows : K → Guarded → Prop} {post : K → Reply → Prop} {rel : Engine → Engine → Prop}

variable (inv knows rel) in
/-- A change in the lock, after which a fact is known. -/
def Makes (e e' : Engine) (fact : K) : Prop :=
  inv e'.guarded ∧ (∀ fact, knows fact e.guarded → knows fact e'.guarded) ∧ knows fact e'.guarded ∧ rel e e'

variable (gone : List Nat → K) (still : ∀ e e', e'.rules = e.rules → rel e e')
  (ends : ∀ groups (reply : Reply), reply.gone = groups → post (gone groups) reply)
include still ends

theorem acts_deploy (env : Env) (id dsl : String) (makes : ∀ e plan version lane, inv e.guarded →
      Makes inv knows rel e (e.deployed id plan dsl version lane) (gone [])) :
    (guarding inv knows).Acts rel post (deploy env id dsl) none (gone []) := by
  unfold deploy
  cases env.compile dsl id with
  | error err => exact ends _ _ rfl
  | ok result =>
    refine acts_still still (fun _ => rfl) (fun _ => rfl) ?_
    intro e _ _
    apply acts_lock still
    intro data
    exact acts_modify _ (fun _ => rfl) (fun e _ => makes e _ _ _) fun data => acts_saved still _ (ends _ _ rfl)

theorem acts_promote (env : Env) (id : String) (version : UInt64)
    (makes : ∀ e r i vp, e.rules.lookup id = some r → find version r.versions = .at i vp → inv e.guarded →
      Makes inv knows rel e (e.setRule id { r with activeVersion := i }) (gone [])) :
    (guarding inv knows).Acts rel post (promote env id version) none (gone []) := by
  refine acts_version still (ends _ _ rfl) (ends _ _ rfl) (fun _ => ?_) ?_
  · trivial
  intro data r i vp known found
  refine acts_modify _ (fun _ => rfl) ?_ fun data => acts_saved still _ (ends _ _ rfl)
  rintro e rfl
  exact makes e r i vp known found

theorem acts_drain (id : String) (version : UInt64)
    (makes : ∀ e r i vp, e.rules.lookup id = some r → find version r.versions = .at i vp → inv e.guarded →
      Makes inv knows rel e (e.drained id r i) (gone [vp.activeExec])) :
    (guarding inv knows).Acts rel post (drain id version) none (gone []) := by
  refine acts_version still (ends _ _ rfl) (ends _ _ rfl) (fun _ => ?_) ?_
  · trivial
  intro data r i vp _ _
  apply acts_unlock still
  apply acts_wait still
  refine acts_version still (ends _ _ rfl) (ends _ _ rfl) (fun _ => ?_) ?_
  · exact acts_unlock still trivial
  intro data r i vp known found
  refine acts_modify _ (drained_mu · id r i) ?_ fun data => acts_reply still (ends _ _ rfl)
  rintro e rfl
  exact makes e r i vp known found

theorem acts_remove (env : Env) (id : String)
    (makes : ∀ e, inv e.guarded → Makes inv knows rel e { e with rules := e.rules.erase id }
      (gone (groupsOf (e.ruleOr id 0).versions))) :
    (guarding inv knows).Acts rel post (remove env id) none (gone []) := by
  apply acts_lock still
  intro data
  apply acts_read still
  intro e _
  cases e.rules.lookup id with
  | none => exact acts_reply still (ends _ _ rfl)
  | some r =>
    apply acts_unlock still
    apply acts_waitAll still
    apply acts_lock still
    intro data
    apply acts_read still
    rintro e rfl
    refine acts_modify _ (fun _ => rfl) ?_ fun data => acts_saved still _ (ends _ _ rfl)
    intro e' same holds
    have rules : e.ruleOr id 0 = e'.ruleOr id 0 := by
      rw [ruleOr, ← show e'.rules = e.rules from congrArg Prod.fst same, ruleOr]
    rw [rules]
    exact makes e' holds

end

end FlowRulZ.Engine
