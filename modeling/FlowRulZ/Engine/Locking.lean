import FlowRulZ.Engine.Rules

/-! # Operations that return

An operation that writes the file calls `saveRules` while it holds the write lock, and
`saveRules` waits for a read lock of the same mutex.  With a path for the file, the
operations that return are those that find nothing to do.
-/

namespace FlowRulZ.Engine

inductive Call where
  | deploy (env : Env) (id dsl : String)
  | addVersion (env : Env) (id dsl : String) (plan : Bytes) (version : UInt64)
  | promote (env : Env) (id : String) (version : UInt64)
  | remove (env : Env) (id : String)

def Call.routine : Call → Routine Engine Reply
  | .deploy env id dsl => Engine.deploy env id dsl
  | .addVersion env id dsl plan version => Engine.addVersion env id dsl plan version
  | .promote env id version => Engine.promote env id version
  | .remove env id => Engine.remove env id

structure Idle (e : Engine) : Prop where
  unlocked : e.mu = {}
  waits : ∀ group, e.waitGroups group = 0

/-- Each call returns, and the next one is made after that. -/
def AllReturn (e : Engine) : List Call → Prop
  | [] => True
  | call :: calls => ∃ reply e', call.routine.Returns e reply e' ∧ AllReturn e' calls

/-- A text that does not compile, or a version or a rule that is not there. -/
def Fruitless (e : Engine) : Call → Prop
  | .deploy env id dsl => ∃ err, env.compile dsl id = .error err
  | .addVersion .. => False
  | .promote _ id version => ∀ r, e.rules.lookup id = some r → find version r.versions = .missing
  | .remove _ id => e.rules.lookup id = none

section

variable {e : Engine} {R : Type}

theorem alone_waitAll (idle : ∀ group, e.waitGroups group = 0) (versions : List (Option VersionedPlan))
    (next : Unit → Routine Engine R) :
    (waitAll versions >>= next).alone e = (next ()).alone e ∨ (waitAll versions >>= next).alone e = some (none, e) := by
  induction versions with
  | nil => exact .inl rfl
  | cons v versions ih =>
    cases v with
    | none => exact .inr rfl
    | some vp => simpa [waitAll, wait, idle] using ih

theorem alone_lock (idle : Idle e) (next : Unit → Routine Engine R) :
    (lock >>= next).alone e = (next ()).alone (e.setMu { writer := true }) := by
  simp [lock, idle.unlocked]

theorem alone_unlock (idle : Idle e) (next : Unit → Routine Engine R) :
    (unlock >>= next).alone (e.setMu { writer := true }) = (next ()).alone e := by
  have same : e.setMu {} = e := by
    rw [← idle.unlocked]
    rfl
  simp [unlock, same]

theorem returns_of_fruitless (idle : Idle e) {call : Call} (fruitless : Fruitless e call) :
    ∃ reply, call.routine.alone e = some (some reply, e) := by
  cases call with
  | deploy env id dsl =>
    obtain ⟨err, rejected⟩ := fruitless
    exact ⟨.error err, by simp [Call.routine, deploy, rejected]⟩
  | addVersion env id dsl plan version => exact fruitless.elim
  | promote env id version =>
    rw [Call.routine, promote, alone_lock idle]
    cases known : e.rules.lookup id with
    | none => simp [known, alone_unlock idle]
    | some r => simp [known, fruitless r known, alone_unlock idle]
  | remove env id =>
    have unknown : e.rules.lookup id = none := fruitless
    rw [Call.routine, remove, alone_lock idle]
    simp [unknown, alone_unlock idle]

theorem alone_change (persisted : e.persistPath ≠ "") (writes : Bool) {update : Engine → Engine}
    (keepsPath : ∀ e, (update e).persistPath = e.persistPath) (keepsLock : ∀ e, (update e).mu = e.mu)
    (next : Unit → Routine Engine R) :
    (Routine.modify update >>= fun _ => saveRules writes >>= next).alone (e.setMu { writer := true }) =
      none := by
  simp [saveRules, rlock, keepsPath, keepsLock, persisted]

theorem fruitless_of_returns (persisted : e.persistPath ≠ "") (idle : Idle e) {call : Call}
    {reply : Reply} {e' : Engine} (returned : call.routine.alone e = some (some reply, e')) :
    Fruitless e call := by
  cases call with
  | deploy env id dsl =>
    cases compiled : env.compile dsl id with
    | error err => exact ⟨err, compiled⟩
    | ok result =>
      have numbered : Idle { e with nextVersion := e.nextVersion + 1 } := ⟨idle.unlocked, idle.waits⟩
      simp only [Call.routine, deploy, compiled, Routine.step_bind, Routine.alone_step, if_true,
        Routine.ret_bind] at returned
      rw [alone_lock numbered, alone_change (e := { e with nextVersion := e.nextVersion + 1 }) persisted] at returned
      · cases returned
      all_goals exact fun _ => rfl
  | addVersion env id dsl plan version =>
    rw [Call.routine, addVersion, alone_lock idle, Routine.alone_read] at returned
    split at returned
    · simp [unlock] at returned
    all_goals
      rw [alone_change persisted] at returned
      · cases returned
      all_goals exact fun _ => rfl
  | promote env id version =>
    intro r known
    rw [Call.routine, promote, alone_lock idle, Routine.alone_read, setMu_rules, known] at returned
    cases search : find version r.versions with
    | missing => rfl
    | nilPointer => simp [search] at returned
    | «at» i vp =>
      simp only [search] at returned
      rw [alone_change persisted] at returned
      · cases returned
      all_goals exact fun _ => rfl
  | remove env id =>
    cases known : e.rules.lookup id with
    | none => exact known
    | some r =>
      rw [Call.routine, remove, alone_lock idle, Routine.alone_read, setMu_rules, known] at returned
      simp only [alone_unlock idle] at returned
      rcases alone_waitAll idle.waits r.versions _ with through | panicked
      · rw [through, alone_lock idle, Routine.alone_read, alone_change persisted] at returned
        · cases returned
        all_goals exact fun _ => rfl
      · rw [panicked] at returned
        cases returned

end

/-- With a path, calls made one after the other all return if and only if each of them finds nothing to do. -/
theorem allReturn_iff {e : Engine} (persisted : e.persistPath ≠ "") (idle : Idle e) (calls : List Call) :
    AllReturn e calls ↔ ∀ call ∈ calls, Fruitless e call := by
  induction calls with
  | nil => simp [AllReturn]
  | cons call calls ih =>
    rw [List.forall_mem_cons, ← ih]
    constructor
    · rintro ⟨reply, e', returned, later⟩
      have ended := (call.routine.returns_iff e reply e').mp returned
      have fruitless := fruitless_of_returns persisted idle ended
      obtain ⟨reply', kept⟩ := returns_of_fruitless idle fruitless
      cases ended.symm.trans kept
      exact ⟨fruitless, later⟩
    · rintro ⟨fruitless, later⟩
      obtain ⟨reply, kept⟩ := returns_of_fruitless idle fruitless
      exact ⟨reply, e, (call.routine.returns_iff e reply e).mpr kept, later⟩

def anyText : Compile := fun dsl _ => if dsl = "" then .error "empty" else .ok ⟨[1], 1⟩

theorem allReturn_nothing : AllReturn (new anyText "rules.json" none)
      [.deploy { compile := anyText } "a" "", .promote { compile := anyText } "a" 1,
        .remove { compile := anyText } "a"] := by
  apply (allReturn_iff (by decide) ⟨rfl, fun _ => rfl⟩ _).mpr
  simp only [List.forall_mem_cons, List.not_mem_nil, false_implies, implies_true, and_true]
  exact ⟨⟨"empty", rfl⟩, by simp [Fruitless, new, loadRules], rfl⟩

/-- The first deploy waits for its own lock. -/
theorem deploy_waits_for_itself :
    ¬ AllReturn (new anyText "rules.json" none) [.deploy { compile := anyText } "a" "n:x"] := by
  rintro ⟨reply, e', returned, -⟩
  rw [Routine.returns_iff] at returned
  obtain ⟨err, rejected⟩ := fruitless_of_returns (by decide) ⟨rfl, fun _ => rfl⟩ returned
  cases rejected

end FlowRulZ.Engine
