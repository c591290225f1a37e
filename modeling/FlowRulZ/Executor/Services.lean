import FlowRulZ.Executor.Json

/-! # Service calls

Services answer through a `Caller`, which may remember all calls made before.  A function
that makes calls takes the log of calls and returns it with its own calls added, also
when it fails.
-/

namespace FlowRulZ

structure Call where
  svcId : UInt16
  body : Bytes
  timeoutMs : UInt64
  deriving Repr, DecidableEq

abbrev Caller := List Call → Call → Except String Bytes

abbrev Exec (α : Type) := List Call → Except (Fault String) α × List Call

/-- `find_retry_config`, with its default for an index out of range. -/
def findRetryConfig (instr : Instruction) (plan : ExecutionPlan) : RetryConfig :=
  (plan.retryConfigs[instr.c.toNat]?).getD ⟨3, .exponential, 0⟩

/-- The attempts of `exec_with_retry` after one that failed with `lastErr`; the pauses between them are not embedded. -/
def retryLoop (caller : Caller) (call : Call) (asyncAck : Bool) (lastErr : Option String) :
    Nat → List Call → Except String Bytes × List Call
  | 0, log => (.error (lastErr.getD "all retries exhausted"), log)
  | left + 1, log =>
    match caller log call with
    | .ok resp => (.ok (if asyncAck then [] else resp), log ++ [call])
    | .error e => retryLoop caller call asyncAck (some e) left (log ++ [call])

def execWithRetry (caller : Caller) (call : Call) (cfg : RetryConfig) (asyncAck : Bool)
    (log : List Call) : Except String Bytes × List Call :=
  retryLoop caller call asyncAck none (cfg.maxAttempts.toNat + 1) log

/-- `exec_next`; an acknowledgement is taken for the answer of a retried call only. -/
def execNext (caller : Caller) (body : Bytes) (instr : Instruction) (plan : ExecutionPlan)
    (asyncAck : Bool) (log : List Call) : Except String Bytes × List Call :=
  let call : Call := ⟨instr.a, body, instr.timeoutMs⟩
  if instr.hasRetry then execWithRetry caller call (findRetryConfig instr plan) asyncAck log
  else (caller log call, log ++ [call])

/-- The loop of `exec_emit` over `count` entries of the service table from `index` on. -/
def emitLoop (caller : Caller) (body : Bytes) (entries : List ServiceEntry) : Nat → Nat → Exec Unit
  | _, 0, log => (.ok (), log)
  | index, count + 1, log =>
    match entries[index]? with
    | none => (.error .panic, log)
    | some entry =>
      let call : Call := ⟨entry.id, body, 0⟩
      match caller log call with
      | .error e => (.error (.err e), log ++ [call])
      | .ok _ => emitLoop caller body entries (index + 1) count (log ++ [call])

/-- `exec_emit`: operand `a` is cut to 8 bits for the count. -/
def execEmit (caller : Caller) (body : Bytes) (instr : Instruction) (plan : ExecutionPlan) : Exec Unit :=
  emitLoop caller body plan.services.rows instr.b.toNat instr.a.toUInt8.toNat

/-- What the threads of `exec_parallel` share: the answers and the last error. -/
structure Parts where
  answers : List (Option Bytes)
  err : Option String := none

def thread (caller : Caller) (body : Bytes) (svcs : List UInt16) (i : Nat) (parts : Parts)
    (log : List Call) : Parts × List Call :=
  match parts.err, svcs[i]? with
  | none, some svcId =>
    let call : Call := ⟨svcId, body, 0⟩
    match caller log call with
    | .ok resp => ({ parts with answers := parts.answers.set i (some resp) }, log ++ [call])
    | .error e => ({ parts with err := some e }, log ++ [call])
  | _, _ => (parts, log)

/-- The threads one after the other, in the order they are scheduled. -/
def threads (caller : Caller) (body : Bytes) (svcs : List UInt16) : List Nat → Parts → List Call → Parts × List Call
  | [], parts, log => (parts, log)
  | i :: rest, parts, log =>
    let next := thread caller body svcs i parts log
    threads caller body svcs rest next.1 next.2

/-- The body with the answers under `_parallel`; a body that is no object gives way. -/
def mergeParallel (host : Host) (body : Bytes) (answers : List (Option Bytes)) : Bytes :=
  let value := Json.arr (answers.map fun part => host.valueOrText (part.getD []))
  let fields : Json.Fields :=
    match host.fromSlice body with
    | .ok (.obj fields) => fields
    | _ => []
  host.toVec (.obj (fields.insert "_parallel" value))

/-- An order in which `n` threads run, given the calls made before. -/
structure Scheduler where
  order : List Call → Nat → List Nat
  order_perm : ∀ log n, (order log n).Perm (List.range n)

def Scheduler.inOrder : Scheduler where
  order _ n := List.range n
  order_perm _ n := List.Perm.refl (List.range n)

/-- `exec_parallel`: the entries are looked up before any thread starts. -/
def execParallel (host : Host) (scheduler : Scheduler) (caller : Caller) (body : Bytes)
    (instr : Instruction) (plan : ExecutionPlan) : Exec Bytes := fun log =>
  let count := instr.a.toNat
  match (List.range count).mapM fun offset => plan.services.rows[instr.b.toNat + offset]? with
  | none => (.error .panic, log)
  | some entries =>
    let (parts, log) := threads caller body (entries.map (·.id)) (scheduler.order log count)
      { answers := List.replicate count none } log
    match parts.err with
    | some e => (.error (.err e), log)
    | none => (.ok (mergeParallel host body parts.answers), log)

def execCollect (host : Host) (body : Bytes) : Except String Bytes :=
  match host.fromSlice body with
  | .error e => .error s!"Collect: failed to parse body: {e}"
  | .ok (.obj fields) =>
    match Json.Fields.get? fields "_parallel" with
    | some value => .ok (host.toVec value)
    | none => .error "Collect: no _parallel key in body"
  | .ok _ => .error "Collect: no _parallel key in body"

end FlowRulZ
