import FlowRulZ.Bytecode.Plan
import FlowRulZ.Lib.Routine
import Mathlib.Data.List.AList

/-! # The rules of an engine

`Engine` keeps the versions of each rule and which of them is active, under a read-write
mutex, and writes them to a file.  The operations are routines, action by action, with the
locks where the source has them.  The hooks that run after a deploy or a promotion are left
to the node.  A map has no order; the one of the table here stands for any.
-/

namespace FlowRulZ

inductive Lane where
  | fast
  | normal
  | heavy
  deriving Repr, DecidableEq

def laneForScore (score : UInt32) : Lane :=
  if score < 10 then .fast
  else if score ≤ 50 then .normal
  else .heavy

structure VersionedPlan where
  plan : Bytes
  dsl : String
  version : UInt64
  lane : Lane
  /-- Which wait group counts its executions. -/
  activeExec : Nat
  deriving Repr, DecidableEq

structure Rule where
  /-- A pointer is nil if the version could not be compiled when it was loaded. -/
  versions : List (Option VersionedPlan) := []
  activeVersion : Int := 0
  deriving Repr, DecidableEq

namespace Rule

def activePlan (r : Rule) : Option VersionedPlan :=
  if r.activeVersion < 0 ∨ (r.versions.length : Int) ≤ r.activeVersion then none
  else (r.versions[r.activeVersion.toNat]?).join

def append (r : Rule) (vp : VersionedPlan) : Rule := { r with versions := r.versions ++ [some vp] }

def replace (r : Rule) (i : Nat) (vp : VersionedPlan) : Rule :=
  { r with versions := r.versions.set i (some vp) }

/-- What `Drain` leaves of a rule without its `i`-th version. -/
def drop (r : Rule) (i : Nat) : Rule where
  versions := r.versions.eraseIdx i
  activeVersion :=
    if r.activeVersion = i then
      if 0 < (r.versions.eraseIdx i).length then 0 else -1
    else if (i : Int) < r.activeVersion then r.activeVersion - 1
    else r.activeVersion

end Rule

structure VersionPersistence where
  dsl : String
  version : UInt64
  lane : Lane
  deriving Repr, DecidableEq

def VersionedPlan.stored (vp : VersionedPlan) : VersionPersistence := ⟨vp.dsl, vp.version, vp.lane⟩

structure RulePersistence where
  id : String
  versions : List VersionPersistence
  activeVersion : Int
  deriving Repr, DecidableEq

/-- The rules file as it is read; a missing one is `none`. -/
abbrev RulesFile := Option (List RulePersistence)

structure CompileResult where
  plan : Bytes
  complexity : UInt32
  deriving Repr, DecidableEq

abbrev Compile := String → String → Except String CompileResult

structure Env where
  compile : Compile
  planComplexity : Bytes → UInt32 := fun _ => 0
  writes : Bool := true

structure RWMutex where
  writer : Bool := false
  readers : Nat := 0
  deriving Repr, DecidableEq

abbrev Rules := AList (fun _ : String => Rule)

structure Engine where
  mu : RWMutex := {}
  rules : Rules := ∅
  nextVersion : UInt64 := 0
  persistPath : String
  file : RulesFile := none
  waitGroups : Nat → Nat := fun _ => 0
  allocated : Nat := 0

/-- What an operation returns; an error, or nil, with what it has done. -/
inductive Reply where
  | error (e : String)
  | deployed (plan : Bytes) (version : UInt64)
  | added
  | promoted
  | drained (groups : List Nat)
  | removed (groups : List Nat)
  | absent
  deriving Repr, DecidableEq

/-- The wait groups of the versions that were removed. -/
def Reply.gone : Reply → List Nat
  | .drained groups | .removed groups => groups
  | _ => []

inductive Found where
  | nilPointer
  | missing
  | at (i : Nat) (vp : VersionedPlan)
  deriving Repr, DecidableEq

def find (version : UInt64) : List (Option VersionedPlan) → Found
  | [] => .missing
  | none :: _ => .nilPointer
  | some vp :: rest =>
    if vp.version = version then .at 0 vp
    else match find version rest with
      | .at i found => .at (i + 1) found
      | other => other

namespace Engine

def setMu (e : Engine) (mu : RWMutex) : Engine := { e with mu := mu }

def lock : Routine Engine Unit :=
  .step (fun e => !e.mu.writer && e.mu.readers == 0) (fun e => e.setMu { e.mu with writer := true })
    fun _ => .ret ()

def unlock : Routine Engine Unit := .modify fun e => e.setMu { e.mu with writer := false }

/-- `RLock`, which also waits for a writer that is the caller itself. -/
def rlock : Routine Engine Unit :=
  .step (fun e => !e.mu.writer) (fun e => e.setMu { e.mu with readers := e.mu.readers + 1 })
    fun _ => .ret ()

def runlock : Routine Engine Unit := .modify fun e => e.setMu { e.mu with readers := e.mu.readers - 1 }

section

variable (e : Engine) (mu : RWMutex)

@[simp] theorem setMu_mu : (e.setMu mu).mu = mu := rfl

@[simp] theorem setMu_rules : (e.setMu mu).rules = e.rules := rfl

@[simp] theorem setMu_persistPath : (e.setMu mu).persistPath = e.persistPath := rfl

@[simp] theorem setMu_setMu (mu' : RWMutex) : (e.setMu mu').setMu mu = e.setMu mu := rfl

end

/-- What is written of a rule; none if a version is nil. -/
def persistRule (id : String) (r : Rule) : Option RulePersistence := do
  let vps ← r.versions.mapM fun v => v.map (·.stored)
  return ⟨id, vps, r.activeVersion⟩

def persist (rules : Rules) : Option (List RulePersistence) :=
  rules.entries.mapM fun entry => persistRule entry.1 entry.2

/-- `saveRules`. Its failures to write are only logged. -/
def saveRules (writes : Bool) : Routine Engine Unit := do
  let persistPath ← .read (·.persistPath)
  if persistPath = "" then return ()
  else
    rlock
    match ← .read fun e => persist e.rules with
    | none => .panic
    | some rules =>
      runlock
      .modify fun e => if writes then { e with file := some rules } else e

def loadVersion (compile : Compile) (id : String) (group : Nat) (v : VersionPersistence) : Option VersionedPlan :=
  match compile v.dsl id with
  | .error _ => none
  | .ok result => some ⟨result.plan, v.dsl, v.version, v.lane, group⟩

/-- The versions of a rule as `loadRules` builds them, with new wait groups. -/
def loadVersions (compile : Compile) (id : String) : Nat → List VersionPersistence → List (Option VersionedPlan)
  | _, [] => []
  | group, v :: rest => loadVersion compile id group v :: loadVersions compile id (group + 1) rest

/-- A rule as `loadRules` builds it, from versions that are built. -/
def loadedRule (versions : List (Option VersionedPlan)) (activeVersion : Int) : Rule where
  versions := versions
  activeVersion :=
    if activeVersion < 0 ∨ (versions.length : Int) ≤ activeVersion then (versions.length : Int) - 1
    else activeVersion

def maxVersion (start : UInt64) (versions : List (Option VersionedPlan)) : UInt64 :=
  versions.foldl (fun maxVer v => v.elim maxVer fun vp => if maxVer < vp.version then vp.version else maxVer) start

def loadRule (compile : Compile) (e : Engine) (r : RulePersistence) : Engine :=
  let versions := loadVersions compile r.id e.allocated r.versions
  { e with
    rules :=
      if versions.length = 0 then e.rules
      else e.rules.insert r.id (loadedRule versions r.activeVersion)
    nextVersion := maxVersion e.nextVersion versions
    allocated := e.allocated + versions.length }

def loadRules (compile : Compile) (e : Engine) : Engine :=
  (e.file.getD []).foldl (loadRule compile) e

/-- `NewWithCompiler`, over a file that may be there. -/
def new (compile : Compile) (persistPath : String) (file : RulesFile) : Engine :=
  let e : Engine := { persistPath, file }
  if persistPath = "" then e else loadRules compile e

/-- The engine of a new process with the same path. -/
def reload (compile : Compile) (e : Engine) : Engine := new compile e.persistPath e.file

def ruleOr (e : Engine) (id : String) (activeVersion : Int) : Rule :=
  (e.rules.lookup id).getD { activeVersion }

def activePlan (e : Engine) (id : String) : Option VersionedPlan := (e.rules.lookup id).bind (·.activePlan)

def setRule (e : Engine) (id : String) (r : Rule) : Engine := { e with rules := e.rules.insert id r }

/-- `Deploy` in its lock: a new version, which is active. -/
def deployed (e : Engine) (id : String) (plan : Bytes) (dsl : String) (version : UInt64) (lane : Lane) : Engine :=
  let r := (e.ruleOr id 0).append ⟨plan, dsl, version, lane, e.allocated⟩
  { e.setRule id { r with activeVersion := (r.versions.length : Int) - 1 } with
    allocated := e.allocated + 1 }

/-- `AddVersion` in its lock: the version at a place is replaced, or there is a new one. -/
def added (e : Engine) (id : String) (plan : Bytes) (dsl : String) (version : UInt64) (lane : Lane)
    (place : Option Nat) : Engine :=
  let vp : VersionedPlan := ⟨plan, dsl, version, lane, e.allocated⟩
  let r := e.ruleOr id (-1)
  { e.setRule id (place.elim (r.append vp) fun i => r.replace i vp) with
    allocated := e.allocated + 1 }

/-- `Drain` in its second lock: the rule goes with its last version. -/
def drained (e : Engine) (id : String) (r : Rule) (i : Nat) : Engine :=
  if (r.drop i).versions.length = 0 then { e with rules := e.rules.erase id } else e.setRule id (r.drop i)

section

variable (e : Engine) (id : String) (r : Rule) (i : Nat)

@[simp]
theorem drained_file : (e.drained id r i).file = e.file := by
  unfold drained
  split_ifs <;> rfl

@[simp]
theorem drained_persistPath : (e.drained id r i).persistPath = e.persistPath := by
  unfold drained
  split_ifs <;> rfl

@[simp]
theorem drained_mu : (e.drained id r i).mu = e.mu := by
  unfold drained
  split_ifs <;> rfl

@[simp]
theorem drained_allocated : (e.drained id r i).allocated = e.allocated := by
  unfold drained
  split_ifs <;> rfl

end

def groupsOf (versions : List (Option VersionedPlan)) : List Nat :=
  versions.filterMap fun v => v.map (·.activeExec)

def deploy (env : Env) (id dsl : String) : Routine Engine Reply :=
  match env.compile dsl id with
  | .error err => .ret (.error err)
  | .ok result => do
    let version ← .step (fun _ => true) (fun e => { e with nextVersion := e.nextVersion + 1 })
      fun e => .ret (e.nextVersion + 1)
    lock
    .modify fun e => e.deployed id result.plan dsl version (laneForScore result.complexity)
    saveRules env.writes
    unlock
    return .deployed result.plan version

/-- `Engine.AddVersion`. The deferred unlock also runs after a panic. -/
def addVersion (env : Env) (id dsl : String) (plan : Bytes) (version : UInt64) : Routine Engine Reply := do
  let lane := laneForScore (env.planComplexity plan)
  lock
  match ← .read fun e => find version (e.ruleOr id (-1)).versions with
  | .nilPointer =>
    unlock
    .panic
  | .at i _ =>
    .modify fun e => e.added id plan dsl version lane (some i)
    saveRules env.writes
    unlock
    return .added
  | .missing =>
    .modify fun e => e.added id plan dsl version lane none
    saveRules env.writes
    unlock
    return .added

def promote (env : Env) (id : String) (version : UInt64) : Routine Engine Reply := do
  lock
  match ← .read (·.rules.lookup id) with
  | none =>
    unlock
    return .error s!"rule not found: {id}"
  | some r =>
    match find version r.versions with
    | .nilPointer => .panic
    | .missing =>
      unlock
      return .error s!"version {version} not found for rule {id}"
    | .at i _ =>
      .modify (·.setRule id { r with activeVersion := i })
      saveRules env.writes
      unlock
      return .promoted

def wait (group : Nat) : Routine Engine Unit := .await fun e => e.waitGroups group == 0

def drain (id : String) (version : UInt64) : Routine Engine Reply := do
  lock
  match ← .read (·.rules.lookup id) with
  | none =>
    unlock
    return .error s!"rule not found: {id}"
  | some r =>
    match find version r.versions with
    | .nilPointer => .panic
    | .missing =>
      unlock
      return .error s!"version {version} not found for rule {id}"
    | .at _ vp =>
      unlock
      wait vp.activeExec
      lock
      match ← .read (·.rules.lookup id) with
      | none =>
        unlock
        return .drained []
      | some r =>
        match find version r.versions with
        | .nilPointer =>
          unlock
          .panic
        | .missing =>
          unlock
          return .drained []
        | .at i vp =>
          .modify (·.drained id r i)
          unlock
          return .drained [vp.activeExec]

def waitAll : List (Option VersionedPlan) → Routine Engine Unit
  | [] => pure ()
  | none :: _ => .panic
  | some vp :: rest => do
    wait vp.activeExec
    waitAll rest

def remove (env : Env) (id : String) : Routine Engine Reply := do
  lock
  match ← .read (·.rules.lookup id) with
  | none =>
    unlock
    return .absent
  | some r =>
    unlock
    waitAll r.versions
    lock
    let r ← .read (·.ruleOr id 0)
    .modify fun e => { e with rules := e.rules.erase id }
    saveRules env.writes
    unlock
    return .removed (groupsOf r.versions)

end Engine

end FlowRulZ
