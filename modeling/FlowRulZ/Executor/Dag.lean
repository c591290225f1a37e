import FlowRulZ.Executor.Services
import FlowRulZ.Lib.Text

/-! # Execution of dependency graphs -/

namespace FlowRulZ

/-- The answers and failures so far; a later answer of a service replaces an earlier one. -/
structure DagState where
  results : List (UInt16 × Bytes) := []
  failed : List UInt16 := []

namespace DagState

def result? (st : DagState) (svcId : UInt16) : Option Bytes := st.results.lookup svcId

def hasFailed (st : DagState) (svcId : UInt16) : Bool := svcId ∈ st.failed

def answer (st : DagState) (svcId : UInt16) (data : Bytes) : DagState :=
  { st with results := (svcId, data) :: st.results }

def fail (st : DagState) (svcId : UInt16) : DagState := { st with failed := svcId :: st.failed }

def note (st : DagState) (svcId : UInt16) : Except String Bytes → DagState
  | .ok data => st.answer svcId data
  | .error _ => st.fail svcId

variable (st : DagState) (svcId id : UInt16) (data : Bytes)

theorem result?_answer : (st.answer svcId data).result? id = if id = svcId then some data else st.result? id := by
  unfold answer result?
  rw [List.lookup_cons]
  split_ifs with here
  · simp [here]
  · rw [beq_false_of_ne here]

@[simp]
theorem result?_fail : (st.fail svcId).result? id = st.result? id := rfl

@[simp]
theorem failed_answer : (st.answer svcId data).failed = st.failed := rfl

@[simp]
theorem mem_failed_fail : id ∈ (st.fail svcId).failed ↔ id = svcId ∨ id ∈ st.failed := List.mem_cons

end DagState

def callBody (host : Host) (body : Bytes) (node : DAGNode) (svcId : UInt16) (st : DagState) : Except String Bytes :=
  if node.parentIds.isEmpty then .ok body
  else
    match host.fromSlice body with
    | .error _ => .error s!"dag node {svcId.toNat}: failed to parse body"
    | .ok value =>
      let merged := node.parentIds.foldl (fun merged parentId =>
        match st.result? parentId with
        | none => merged
        | some resp =>
          match host.fromSlice resp with
          | .ok parent => merged.deepMerge parent
          | .error _ => merged) value
      .ok (host.toVec merged)

def dagStep (host : Host) (caller : Caller) (body : Bytes) (dag : DAGTable) (svcId : UInt16)
    (st : DagState) : Exec DagState := fun log =>
  match dag.nodes.find? (·.serviceId = svcId) with
  | none => (.ok st, log)
  | some node =>
    if dag.failurePolicy = .skipDependents ∧ node.parentIds.any st.hasFailed then
      (.ok (st.fail svcId), log)
    else
      match callBody host body node svcId st with
      | .error e => (.error (.err e), log)
      | .ok callBody =>
        let index := dag.nodes.findIdx (·.serviceId = svcId)
        let timeout : UInt64 := ((dag.nodeTimeouts[index]?).getD 0).toUInt64
        let call : Call := ⟨svcId, callBody, timeout⟩
        match caller log call with
        | .ok data => (.ok (st.answer svcId data), log ++ [call])
        | .error e =>
          if dag.failurePolicy = .abortAll then
            (.error (.err s!"dag node {svcId.toNat}: {e}"), log ++ [call])
          else (.ok (st.fail svcId), log ++ [call])

def dagCall (dag : DAGTable) (svcId : UInt16) (data : Bytes) : Call where
  svcId := svcId
  body := data
  timeoutMs := ((dag.nodeTimeouts[dag.nodes.findIdx (·.serviceId = svcId)]?).getD 0).toUInt64

/-- What a service of a layer leads to, once its body is built: it is skipped, or called, and then it ends the run, or
its answer or failure is noted. -/
theorem dagStep_cases {host : Host} {body data : Bytes} {dag : DAGTable} {svcId : UInt16}
    {st : DagState} {node : DAGNode} {call : Call}
    (found : dag.nodes.find? (·.serviceId = svcId) = some node)
    (built : callBody host body node svcId st = .ok data) (made : dagCall dag svcId data = call)
    (caller : Caller) (log : List Call) :
    (dag.failurePolicy = .skipDependents ∧ (∃ p ∈ node.parentIds, p ∈ st.failed) ∧
      dagStep host caller body dag svcId st log = (.ok (st.fail svcId), log)) ∨
    ((dag.failurePolicy = .skipDependents → ∀ p ∈ node.parentIds, p ∉ st.failed) ∧
      ((dag.failurePolicy = .abortAll ∧ (∃ e, caller log call = .error e) ∧
          ∃ e, dagStep host caller body dag svcId st log = (.error (.err e), log ++ [call])) ∨
        (dag.failurePolicy = .abortAll → ∃ resp, caller log call = .ok resp) ∧
          dagStep host caller body dag svcId st log = (.ok (st.note svcId (caller log call)), log ++ [call]))) := by
  have failing : node.parentIds.any st.hasFailed = true ↔ ∃ p ∈ node.parentIds, p ∈ st.failed := by
    simp [DagState.hasFailed]
  unfold dagStep
  simp only [found, built]
  by_cases skipped : dag.failurePolicy = .skipDependents ∧ node.parentIds.any st.hasFailed = true
  · left
    exact ⟨skipped.1, failing.mp skipped.2, by rw [if_pos skipped]⟩
  · right
    rw [if_neg skipped]
    refine ⟨fun policy p up gone => skipped ⟨policy, failing.mpr ⟨p, up, gone⟩⟩, ?_⟩
    rw [dagCall] at made
    simp only [made]
    cases answer : caller log call with
    | ok resp => exact .inr ⟨fun _ => ⟨resp, rfl⟩, rfl⟩
    | error e =>
      by_cases policy : dag.failurePolicy = .abortAll
      · exact .inl ⟨policy, ⟨e, rfl⟩, _, if_pos policy⟩
      · exact .inr ⟨fun abort => absurd abort policy, if_neg policy⟩

def dagLoop (host : Host) (caller : Caller) (body : Bytes) (dag : DAGTable) : List UInt16 → DagState → Exec DagState
  | [], st, log => (.ok st, log)
  | svcId :: rest, st, log =>
    match dagStep host caller body dag svcId st log with
    | (.error e, log) => (.error e, log)
    | (.ok st, log) => dagLoop host caller body dag rest st log

def serviceName (plan : ExecutionPlan) (svcId : UInt16) : Except (Fault String) String :=
  match plan.services.get? svcId with
  | some entry => .ok entry.name
  | none => .error .panic

/-- The entries of `merge_last_wins`: the answers as they are, without escaping. -/
def lastWinsEntries (plan : ExecutionPlan) (st : DagState) : List UInt16 → Except (Fault String) (List String)
  | [] => .ok []
  | svcId :: rest => do
    if st.hasFailed svcId then
      let name ← serviceName plan svcId
      return ("\"" ++ name ++ "\":null") :: (← lastWinsEntries plan st rest)
    else
      match st.result? svcId with
      | none => lastWinsEntries plan st rest
      | some resp =>
        let name ← serviceName plan svcId
        return ("\"" ++ name ++ "\":" ++ Utf8.fromUtf8Lossy resp) :: (← lastWinsEntries plan st rest)

def explicitMap (host : Host) (plan : ExecutionPlan) (st : DagState) (merged : Json.Fields) :
    List UInt16 → Except (Fault String) Json.Fields
  | [] => .ok merged
  | svcId :: rest =>
    if st.hasFailed svcId then
      explicitMap host plan st (merged.insert s!"svc_{svcId.toNat}" .null) rest
    else
      match st.result? svcId with
      | none => explicitMap host plan st merged rest
      | some resp => do
        let name ← serviceName plan svcId
        match host.fromSlice resp with
        | .ok value => explicitMap host plan st (merged.insert name value) rest
        | .error _ => explicitMap host plan st merged rest

def mergeDagResults (host : Host) (plan : ExecutionPlan) (dag : DAGTable) (st : DagState) :
    Except (Fault String) Bytes :=
  match dag.mergeStrategy with
  | .arrayConcat =>
    .ok (host.toVec (.arr (dag.terminalNodes.filterMap fun svcId =>
      if st.hasFailed svcId then some .null else (st.result? svcId).map host.valueOrText)))
  | .deepMerge =>
    .ok (host.toVec (dag.terminalNodes.foldl (fun merged svcId =>
      if st.hasFailed svcId then merged
      else
        match st.result? svcId with
        | none => merged
        | some resp =>
          match host.fromSlice resp with
          | .ok value => merged.deepMerge value
          | .error _ => merged) (.obj [])))
  | .explicitMap => do
    return host.toVec (.obj (← explicitMap host plan st [] dag.terminalNodes))
  | .lastWins => do
    let entries ← lastWinsEntries plan st dag.terminalNodes
    return Utf8.encode ("\x7b" ++ Text.join "," entries ++ "\x7d")

def execDag (host : Host) (caller : Caller) (body : Bytes) (instr : Instruction)
    (plan : ExecutionPlan) : Exec Bytes := fun log =>
  match plan.dagTables[instr.a.toNat]? with
  | none => (.error .panic, log)
  | some dag =>
    match dagLoop host caller body dag dag.layers.flatten {} log with
    | (.error e, log) => (.error e, log)
    | (.ok st, log) => (mergeDagResults host plan dag st, log)

end FlowRulZ
