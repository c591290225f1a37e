import FlowRulZ.Executor.Dag
import FlowRulZ.Lib.Precedence

/-! # Runs of dependency graphs

What `exec_dag` does with a table whose layers partition its nodes, with all parents of a
node in earlier layers: which nodes it calls, in which order and with which bodies.
-/

open List

namespace FlowRulZ

namespace DAGTable

/-- The layers partition the nodes, and parents are in earlier layers. -/
structure WellFormed (dag : DAGTable) : Prop where
  nodes : dag.layers.flatten.Perm (dag.nodes.map (·.serviceId))
  once : dag.layers.flatten.Nodup
  earlier : ∀ node ∈ dag.nodes, ∀ parent ∈ node.parentIds, ∃ i j : Nat, i < j ∧
    ∃ layer ∈ dag.layers[i]?, ∃ later ∈ dag.layers[j]?, parent ∈ layer ∧ node.serviceId ∈ later

def Parent (dag : DAGTable) (p id : UInt16) : Prop :=
  ∃ node ∈ dag.nodes, node.serviceId = id ∧ p ∈ node.parentIds

def Ancestor (dag : DAGTable) : UInt16 → UInt16 → Prop := Relation.TransGen dag.Parent

variable {dag : DAGTable} {node : DAGNode} {p id : UInt16} {done rest : List UInt16}

namespace WellFormed

section

variable (wf : dag.WellFormed)
include wf

theorem nodup_nodes : (dag.nodes.map (·.serviceId)).Nodup :=
  wf.nodes.nodup_iff.mp wf.once

theorem find?_node (listed : node ∈ dag.nodes) : dag.nodes.find? (·.serviceId = node.serviceId) = some node := by
  obtain ⟨before, after, split⟩ := append_of_mem listed
  have distinct := wf.nodup_nodes
  rw [split, map_append, map_cons, nodup_middle, nodup_cons] at distinct
  rw [split, find?_append, find?_eq_none.mpr]
  · simp
  · intro other inside same
    have equal : other.serviceId = node.serviceId := of_decide_eq_true same
    exact distinct.1 (mem_append_left _ (equal ▸ mem_map_of_mem inside))

theorem node_unique {other : DAGNode} (listed : node ∈ dag.nodes)
    (listed' : other ∈ dag.nodes) (same : other.serviceId = node.serviceId) : other = node := by
  have found := wf.find?_node listed'
  rw [same, wf.find?_node listed] at found
  exact (Option.some.inj found).symm

theorem parents_before (order : dag.layers.flatten = done ++ id :: rest) (parent : dag.Parent p id) : p ∈ done := by
  obtain ⟨node, listed, rfl, up⟩ := parent
  obtain ⟨i, j, before, layer, first, later, second, inFirst, inSecond⟩ :=
    wf.earlier node listed p up
  exact Precedence.mem_before wf.once before first second inFirst inSecond order

theorem parents_mem (order : dag.layers.flatten = done ++ rest)
    (passed : id ∈ done) (parent : dag.Parent p id) : p ∈ done := by
  obtain ⟨before, after, rfl⟩ := append_of_mem passed
  have order : dag.layers.flatten = before ++ id :: (after ++ rest) := by simpa using order
  exact mem_append_left _ (wf.parents_before order parent)

theorem node_of_mem (listed : id ∈ dag.layers.flatten) : ∃ node ∈ dag.nodes, node.serviceId = id :=
  mem_map.mp (wf.nodes.mem_iff.mp listed)

/-- Places in the order make the parents well founded. -/
theorem wellFounded : WellFounded dag.Parent := by
  apply Subrelation.wf (r := InvImage (· < ·) dag.layers.flatten.idxOf) _ (InvImage.wf _ Nat.lt_wfRel.wf)
  intro p id parent
  obtain ⟨node, listed, rfl, up⟩ := parent
  have inside : node.serviceId ∈ dag.layers.flatten :=
    wf.nodes.mem_iff.mpr (mem_map_of_mem listed)
  obtain ⟨done, rest, order⟩ := append_of_mem inside
  have before : p ∈ done := wf.parents_before order ⟨node, listed, rfl, up⟩
  have fresh : node.serviceId ∉ done := by
    have once := wf.once
    rw [order, nodup_middle, nodup_cons, mem_append, not_or] at once
    exact once.1.1
  show dag.layers.flatten.idxOf p < dag.layers.flatten.idxOf node.serviceId
  rw [order, idxOf_append_of_mem before, idxOf_append_of_notMem fresh]
  exact lt_of_lt_of_le (idxOf_lt_length_iff.mpr before) (Nat.le_add_right _ _)

end

end WellFormed

end DAGTable

/-- The answer to the first call of a service, for calls made after those of the log. -/
def answerOf (caller : Caller) : List Call → List Call → UInt16 → Option (Except String Bytes)
  | _, [], _ => none
  | log, call :: rest, id =>
    if call.svcId = id then some (caller log call) else answerOf caller (log ++ [call]) rest id

def called (calls : List Call) : List UInt16 := calls.map (·.svcId)

section

variable {caller : Caller} {log calls : List Call} {call : Call} {id : UInt16}

@[simp]
theorem called_append (calls more : List Call) : called (calls ++ more) = called calls ++ called more :=
  map_append

theorem answerOf_of_not_called (absent : id ∉ called calls) : answerOf caller log calls id = none := by
  induction calls generalizing log with
  | nil => rfl
  | cons call calls ih =>
    obtain ⟨other, absent⟩ := not_or.mp (mt mem_cons.mpr absent)
    rw [answerOf, if_neg fun same => other same.symm]
    exact ih absent

theorem exists_answerOf (there : id ∈ called calls) : ∃ answer, answerOf caller log calls id = some answer := by
  induction calls generalizing log with
  | nil => cases there
  | cons call calls ih =>
    rw [answerOf]
    split_ifs with here
    · exact ⟨_, rfl⟩
    · rcases mem_cons.mp there with same | later
      · exact absurd same.symm here
      · exact ih later

theorem answerOf_append_of_called (there : id ∈ called calls) (more : List Call) :
    answerOf caller log (calls ++ more) id = answerOf caller log calls id := by
  induction calls generalizing log with
  | nil => cases there
  | cons call calls ih =>
    rw [cons_append, answerOf, answerOf]
    split_ifs with here
    · rfl
    · apply ih
      rcases mem_cons.mp there with same | later
      · exact absurd same.symm here
      · exact later

theorem answerOf_append_of_not_called (absent : id ∉ called calls) (more : List Call) :
    answerOf caller log (calls ++ more) id = answerOf caller (log ++ calls) more id := by
  induction calls generalizing log with
  | nil => simp
  | cons call calls ih =>
    obtain ⟨other, absent⟩ := not_or.mp (mt mem_cons.mpr absent)
    rw [cons_append, answerOf, if_neg fun same => other same.symm, ih absent]
    simp

theorem answerOf_last (fresh : call.svcId ∉ called calls) :
    answerOf caller log (calls ++ [call]) call.svcId = some (caller (log ++ calls) call) := by
  rw [answerOf_append_of_not_called fresh]
  simp [answerOf]

theorem answerOf_at {before : List Call} (once : (called calls).Nodup) (made : before ++ [call] <+: calls) :
    answerOf caller log calls call.svcId = some (caller (log ++ before) call) := by
  obtain ⟨after, rfl⟩ := made
  have fresh : call.svcId ∉ called before := by
    rw [append_assoc, singleton_append, called, map_append, map_cons,
      nodup_middle, nodup_cons, mem_append, not_or] at once
    exact once.1.1
  rw [answerOf_append_of_called, answerOf_last fresh]
  simp [called]

theorem answerOf_other (other : call.svcId ≠ id) :
    answerOf caller log (calls ++ [call]) id = answerOf caller log calls id := by
  by_cases there : id ∈ called calls
  · exact answerOf_append_of_called there _
  · rw [answerOf_append_of_not_called there, answerOf_of_not_called there]
    simp [answerOf, other]

end

section

variable (host : Host) (caller : Caller) (body : Bytes) (value : Json) (dag : DAGTable) (log : List Call)

/-- A value merged with what a service answered, if that is JSON. -/
def mergeAnswer (answers : UInt16 → Option (Except String Bytes)) (merged : Json) (id : UInt16) : Json :=
  match answers id with
  | some (.ok resp) =>
    match host.fromSlice resp with
    | .ok answer => merged.deepMerge answer
    | .error _ => merged
  | _ => merged

/-- What a node is called with after some calls: the body, merged with the answers of its parents. -/
def nodeBody (node : DAGNode) (calls : List Call) : Bytes :=
  if node.parentIds = [] then body
  else host.toVec (node.parentIds.foldl (mergeAnswer host (answerOf caller log calls)) value)

def nodeCall (node : DAGNode) (calls : List Call) : Call :=
  dagCall dag node.serviceId (nodeBody host caller body value log node calls)

def Answered (calls : List Call) (id : UInt16) : Prop :=
  ∃ resp, answerOf caller log calls id = some (.ok resp)

/-- The calls of some services that were passed in this order: a node is called after its parents, with what they
answered. -/
structure DagCalls (done : List UInt16) (calls : List Call) : Prop where
  order : (called calls).Sublist done
  parents : ∀ before call, before ++ [call] <+: calls → ∀ node ∈ dag.nodes,
    node.serviceId = call.svcId → ∀ p ∈ node.parentIds, p ∈ called before
  bodies : ∀ before call, before ++ [call] <+: calls → ∀ node ∈ dag.nodes,
    node.serviceId = call.svcId → call.body = nodeBody host caller body value log node before

structure DagProgress (done : List UInt16) (calls : List Call) (st : DagState) : Prop
    extends DagCalls host caller body value dag log done calls where
  results : ∀ id resp, st.result? id = some resp ↔ answerOf caller log calls id = some (.ok resp)
  failed : ∀ id, id ∈ st.failed ↔ id ∈ done ∧ ¬ Answered caller log calls id
  all : dag.failurePolicy ≠ .skipDependents → called calls = done
  abort : dag.failurePolicy = .abortAll → ∀ id ∈ done, Answered caller log calls id
  skip : dag.failurePolicy = .skipDependents → ∀ id ∈ done,
    id ∈ called calls ↔ ∀ p, dag.Parent p id → Answered caller log calls p

variable {host caller body value dag log} {done rest : List UInt16} {calls : List Call}
  {st : DagState} {node : DAGNode} {call : Call} {id : UInt16}

theorem Answered.called (answered : Answered caller log calls id) : id ∈ called calls := by
  by_contra absent
  obtain ⟨resp, answer⟩ := answered
  rw [answerOf_of_not_called absent] at answer
  cases answer

theorem answered_other (other : call.svcId ≠ id) :
    Answered caller log (calls ++ [call]) id ↔ Answered caller log calls id := by
  simp only [Answered, answerOf_other other]

theorem callBody_eq (json : host.fromSlice body = .ok value)
    (results : ∀ id resp, st.result? id = some resp ↔ answerOf caller log calls id = some (.ok resp)) :
    callBody host body node id st = .ok (nodeBody host caller body value log node calls) := by
  unfold callBody nodeBody
  simp only [List.isEmpty_iff, json]
  split_ifs
  · rfl
  · refine congrArg (fun merged => Except.ok (host.toVec merged)) (List.foldl_ext _ _ _ ?_)
    intro merged parentId _
    unfold mergeAnswer
    cases result : st.result? parentId with
    | some resp =>
      have answer := (results parentId resp).mp result
      cases parsed : host.fromSlice resp <;> simp only [answer, parsed]
    | none =>
      have silent : ∀ resp, answerOf caller log calls parentId ≠ some (.ok resp) := by
        intro resp answer
        rw [(results parentId resp).mpr answer] at result
        cases result
      cases answer : answerOf caller log calls parentId with
      | none => rfl
      | some answered =>
        cases answered with
        | ok resp => exact absurd answer (silent resp)
        | error e => rfl

namespace DagCalls

variable (calls_ : DagCalls host caller body value dag log done calls)
include calls_

theorem passing (more : List UInt16) : DagCalls host caller body value dag log (done ++ more) calls :=
  ⟨calls_.order.trans (sublist_append_left done more), calls_.parents, calls_.bodies⟩

theorem calling (wf : dag.WellFormed) (listed : node ∈ dag.nodes)
    (called_ : nodeCall host caller body value dag log node calls = call)
    (parents : ∀ p ∈ node.parentIds, p ∈ called calls) :
    DagCalls host caller body value dag log (done ++ [node.serviceId]) (calls ++ [call]) := by
  subst called_
  constructor
  case order =>
    rw [called_append]
    exact calls_.order.append (List.Sublist.refl _)
  case parents =>
    intro before made cut other listed' same
    rcases prefix_concat_iff.mp cut with last | earlier
    · obtain ⟨rfl, single⟩ := append_inj' last rfl
      obtain rfl := singleton_inj.mp single
      rw [wf.node_unique listed listed' same]
      exact parents
    · exact calls_.parents before made earlier other listed' same
  case bodies =>
    intro before made cut other listed' same
    rcases prefix_concat_iff.mp cut with last | earlier
    · obtain ⟨rfl, single⟩ := append_inj' last rfl
      obtain rfl := singleton_inj.mp single
      rw [wf.node_unique listed listed' same]
      rfl
    · exact calls_.bodies before made earlier other listed' same

theorem bodies_merged : ∀ before call, before ++ [call] <+: calls → ∀ node ∈ dag.nodes,
      node.serviceId = call.svcId → node.parentIds ≠ [] → call.body =
        host.toVec (node.parentIds.foldl (mergeAnswer host (answerOf caller log before)) value) := by
  intro before call made node listed same dependent
  rw [calls_.bodies before call made node listed same, nodeBody, if_neg dependent]

theorem nodup (wf : dag.WellFormed) (passed : done <+: dag.layers.flatten) : (called calls).Nodup :=
  (wf.once.sublist passed.sublist).sublist calls_.order

end DagCalls

namespace DagProgress

variable (progress : DagProgress host caller body value dag log done calls st)
  (wf : dag.WellFormed) (listed : node ∈ dag.nodes)
  (order : dag.layers.flatten = done ++ node.serviceId :: rest)

include wf order

omit progress listed in
theorem fresh : node.serviceId ∉ done := by
  have once := wf.once
  rw [order, nodup_middle, nodup_cons, mem_append, not_or] at once
  exact once.1.1

include progress

theorem not_called : node.serviceId ∉ called calls :=
  fun there => fresh wf order (progress.order.subset there)

include listed

theorem parents_answered {p : UInt16} (up : p ∈ node.parentIds) (fine : p ∉ st.failed) :
    Answered caller log calls p := by
  by_contra silent
  have passed : p ∈ done := wf.parents_before order ⟨node, listed, rfl, up⟩
  exact fine ((progress.failed p).mpr ⟨passed, silent⟩)

theorem parents_called (ready : dag.failurePolicy = .skipDependents → ∀ p ∈ node.parentIds, p ∉ st.failed) :
    ∀ p ∈ node.parentIds, p ∈ called calls := by
  intro p up
  by_cases policy : dag.failurePolicy = .skipDependents
  · exact (progress.parents_answered wf listed order up (ready policy p up)).called
  · rw [progress.all policy]
    exact wf.parents_before order ⟨node, listed, rfl, up⟩

theorem skipping (policy : dag.failurePolicy = .skipDependents) (failing : ∃ p ∈ node.parentIds, p ∈ st.failed) :
    DagProgress host caller body value dag log (done ++ [node.serviceId]) calls (st.fail node.serviceId) := by
  have silent : ¬ Answered caller log calls node.serviceId :=
    fun answered => progress.not_called wf order answered.called
  refine ⟨progress.passing _, progress.results, ?_, ?_, ?_, ?_⟩
  · intro id
    rw [DagState.mem_failed_fail, progress.failed, mem_append, mem_singleton]
    constructor
    · rintro (rfl | ⟨before, unanswered⟩)
      · exact ⟨.inr rfl, silent⟩
      · exact ⟨.inl before, unanswered⟩
    · rintro ⟨before | here, unanswered⟩
      · exact .inr ⟨before, unanswered⟩
      · exact .inl here
  · exact fun other => absurd policy other
  · intro other
    rw [policy] at other
    cases other
  · intro _ id passed
    rcases mem_append.mp passed with before | here
    · exact progress.skip policy id before
    · obtain rfl := mem_singleton.mp here
      obtain ⟨p, up, gone⟩ := failing
      have parent : dag.Parent p node.serviceId := ⟨node, listed, rfl, up⟩
      have unanswered := ((progress.failed p).mp gone).2
      constructor
      · exact fun there => absurd there (progress.not_called wf order)
      · exact fun all => absurd (all p parent) unanswered

variable (called_ : nodeCall host caller body value dag log node calls = call)
  (ready : dag.failurePolicy = .skipDependents → ∀ p ∈ node.parentIds, p ∉ st.failed)

include called_ ready

theorem noting (fine : dag.failurePolicy = .abortAll → ∃ resp, caller (log ++ calls) call = .ok resp) :
    DagProgress host caller body value dag log (done ++ [node.serviceId]) (calls ++ [call])
      (st.note node.serviceId (caller (log ++ calls) call)) := by
  have svcId : call.svcId = node.serviceId := by rw [← called_]; rfl
  have uncalled := progress.not_called wf order
  have last : answerOf caller log (calls ++ [call]) node.serviceId = some (caller (log ++ calls) call) := by
    rw [← svcId, answerOf_last (svcId ▸ uncalled)]
  have apart : ∀ id ∈ done, call.svcId ≠ id := by
    rintro id before rfl
    exact fresh wf order (svcId ▸ before)
  have parents := progress.parents_called wf listed order ready
  refine ⟨progress.toDagCalls.calling wf listed called_ parents, ?_, ?_, ?_, ?_, ?_⟩
  · intro id data
    by_cases here : id = node.serviceId
    · subst here
      have before : st.result? node.serviceId = none := by
        by_contra found
        obtain ⟨old, found⟩ := Option.ne_none_iff_exists'.mp found
        exact uncalled (Answered.called ⟨old, (progress.results _ _).mp found⟩)
      rw [last]
      cases caller (log ++ calls) call <;> simp [DagState.note, DagState.result?_answer, before]
    · rw [answerOf_other (svcId ▸ Ne.symm here), ← progress.results]
      cases caller (log ++ calls) call <;> simp [DagState.note, DagState.result?_answer, here]
  · intro id
    have failed : id ∈ (st.note node.serviceId (caller (log ++ calls) call)).failed ↔
        id ∈ st.failed ∨ id = node.serviceId ∧ ¬ Answered caller log (calls ++ [call]) node.serviceId := by
      rw [Answered, last]
      cases caller (log ++ calls) call <;> simp [DagState.note, or_comm]
    rw [failed, progress.failed, mem_append, mem_singleton]
    constructor
    · rintro (⟨before, unanswered⟩ | ⟨rfl, unanswered⟩)
      · exact ⟨.inl before, mt (answered_other (apart id before)).mp unanswered⟩
      · exact ⟨.inr rfl, unanswered⟩
    · rintro ⟨before | rfl, unanswered⟩
      · exact .inl ⟨before, mt (answered_other (apart id before)).mpr unanswered⟩
      · exact .inr ⟨rfl, unanswered⟩
  · intro policy
    rw [called_append, progress.all policy, called, map_singleton, svcId]
  · intro policy id passed
    rcases mem_append.mp passed with before | here
    · exact (answered_other (apart id before)).mpr (progress.abort policy id before)
    · obtain ⟨resp, answer⟩ := fine policy
      rw [mem_singleton.mp here]
      exact ⟨resp, answer ▸ last⟩
  · intro policy id passed
    rcases mem_append.mp passed with before | here
    · have same : ∀ p, dag.Parent p id → (Answered caller log (calls ++ [call]) p ↔ Answered caller log calls p) :=
        fun p parent => answered_other (apart p (wf.parents_mem order before parent))
      have other : id ≠ call.svcId := (apart id before).symm
      rw [called_append, mem_append, progress.skip policy id before, forall₂_congr same]
      simp [called, other]
    · obtain rfl := mem_singleton.mp here
      constructor
      · rintro - p ⟨other, listed', same, up⟩
        rw [wf.node_unique listed listed' same] at up
        have passed : p ∈ done := wf.parents_before order ⟨node, listed, rfl, up⟩
        exact (answered_other (apart p passed)).mpr (progress.parents_answered wf listed order up (ready policy p up))
      · exact fun _ => by simp [called, svcId]

end DagProgress

/-- A call failed under `AbortAll`, after calls that were all answered. -/
def DagAborts (host : Host) (caller : Caller) (body : Bytes) (value : Json) (dag : DAGTable)
    (log calls : List Call) : Prop :=
  dag.failurePolicy = .abortAll ∧ ∃ done before last st, DagProgress host caller body value dag log done before st ∧
      calls = before ++ [last] ∧ DagCalls host caller body value dag log dag.layers.flatten calls

/-- By induction on the services that are left: each one keeps the progress, or ends the run. -/
theorem dagLoop_progress (wf : dag.WellFormed) (json : host.fromSlice body = .ok value)
    (rest : List UInt16) : ∀ {done calls st}, dag.layers.flatten = done ++ rest →
      DagProgress host caller body value dag log done calls st →
      ∃ calls', (dagLoop host caller body dag rest st (log ++ calls)).2 = log ++ calls' ∧
        ((∃ st', (dagLoop host caller body dag rest st (log ++ calls)).1 = .ok st' ∧
            DagProgress host caller body value dag log dag.layers.flatten calls' st') ∨
          (∃ e, (dagLoop host caller body dag rest st (log ++ calls)).1 = .error (.err e)) ∧
            DagAborts host caller body value dag log calls') := by
  induction rest with
  | nil =>
    intro done calls st order progress
    rw [append_nil] at order
    exact ⟨calls, rfl, .inl ⟨st, rfl, order ▸ progress⟩⟩
  | cons id rest ih =>
    intro done calls st order progress
    have passes : id ∈ dag.layers.flatten := order ▸ mem_append_right _ mem_cons_self
    obtain ⟨node, listed, rfl⟩ := wf.node_of_mem passes
    have onward : dag.layers.flatten = (done ++ [node.serviceId]) ++ rest := by simpa using order
    unfold dagLoop
    rcases dagStep_cases (wf.find?_node listed) (callBody_eq json progress.results) rfl caller
      (log ++ calls) with ⟨policy, failing, step⟩ | ⟨ready, ⟨policy, -, e', step⟩ | ⟨fine, step⟩⟩ <;>
      simp only [step, append_assoc]
    · exact ih onward (progress.skipping wf listed order policy failing)
    · refine ⟨_, rfl, .inr ⟨⟨e', rfl⟩, policy, done, calls, _, st, progress, rfl, ?_⟩⟩
      rw [onward]
      exact (progress.toDagCalls.calling wf listed rfl (progress.parents_called wf listed order ready)).passing rest
    · exact ih onward (progress.noting wf listed order rfl ready fine)

def Failed (caller : Caller) (log calls : List Call) (id : UInt16) : Prop :=
  ∃ e, answerOf caller log calls id = some (.error e)

theorem answered_iff : Answered caller log calls id ↔ id ∈ called calls ∧ ¬ Failed caller log calls id := by
  constructor
  · rintro ⟨resp, answer⟩
    refine ⟨Answered.called ⟨resp, answer⟩, ?_⟩
    rintro ⟨e, other⟩
    rw [answer] at other
    cases other
  · rintro ⟨there, fine⟩
    obtain ⟨answer, answered⟩ := exists_answerOf there
    cases answer with
    | ok resp => exact ⟨resp, answered⟩
    | error e => exact absurd ⟨e, answered⟩ fine

/-- What is promised of the calls and the outcome of a dependency graph. -/
structure DagRun (host : Host) (caller : Caller) (body : Bytes) (value : Json) (dag : DAGTable)
    (log calls : List Call) (out : Except (Fault String) Bytes) : Prop where
  once : (called calls).Nodup
  nodes : ∀ id ∈ called calls, ∃ node ∈ dag.nodes, node.serviceId = id
  parents : ∀ before call, before ++ [call] <+: calls → ∀ node ∈ dag.nodes,
    node.serviceId = call.svcId → ∀ p ∈ node.parentIds, p ∈ called before
  bodies : ∀ before call, before ++ [call] <+: calls → ∀ node ∈ dag.nodes,
    node.serviceId = call.svcId → node.parentIds ≠ [] → call.body =
      host.toVec (node.parentIds.foldl (mergeAnswer host (answerOf caller log before)) value)
  skipDependents : dag.failurePolicy = .skipDependents → ∀ node ∈ dag.nodes,
    node.serviceId ∈ called calls ↔ ∀ id, dag.Ancestor id node.serviceId → ¬ Failed caller log calls id
  continueOthers : dag.failurePolicy = .continueOthers → ∀ node ∈ dag.nodes,
    node.serviceId ∈ called calls
  abortAll : dag.failurePolicy = .abortAll → ∀ before call e, before ++ [call] <+: calls →
    caller (log ++ before) call = .error e → calls = before ++ [call] ∧ ∃ e', out = .error (.err e')

theorem DagProgress.no_failure (progress : DagProgress host caller body value dag log done calls st)
    (once : (called calls).Nodup) (policy : dag.failurePolicy = .abortAll) {before : List Call}
    (made : before ++ [call] <+: calls) {e : String} : caller (log ++ before) call ≠ .error e := by
  intro error
  have there : call.svcId ∈ called calls := (made.map _).subset (by simp)
  obtain ⟨resp, answer⟩ := progress.abort policy call.svcId (progress.order.subset there)
  rw [answerOf_at once made, error] at answer
  cases answer

theorem DagProgress.run (wf : dag.WellFormed)
    (progress : DagProgress host caller body value dag log dag.layers.flatten calls st)
    (out : Except (Fault String) Bytes) : DagRun host caller body value dag log calls out := by
  have once := progress.toDagCalls.nodup wf prefix_rfl
  have passes : ∀ node ∈ dag.nodes, node.serviceId ∈ dag.layers.flatten :=
    fun node listed => wf.nodes.mem_iff.mpr (mem_map_of_mem listed)
  refine ⟨once, fun id there => wf.node_of_mem (progress.order.subset there), progress.parents,
    progress.bodies_merged, ?_, ?_, ?_⟩
  · intro policy node listed
    -- services outside the graph count as started, so that the rule holds for all of them
    have rule : ∀ id, (id ∈ dag.layers.flatten → id ∈ called calls) ↔ ∀ p, dag.Parent p id →
        (p ∈ dag.layers.flatten → p ∈ called calls) ∧ ¬ Failed caller log calls p := by
      intro id
      constructor
      · intro started p parent
        obtain ⟨node, listed, rfl, up⟩ := parent
        have answered := (progress.skip policy _ (passes node listed)).mp (started (passes node listed))
          p ⟨node, listed, rfl, up⟩
        exact ⟨fun _ => answered.called, (answered_iff.mp answered).2⟩
      · intro fine passed
        refine (progress.skip policy id passed).mpr fun p parent => answered_iff.mpr ?_
        have whole : dag.layers.flatten = dag.layers.flatten ++ [] := (append_nil _).symm
        exact ⟨(fine p parent).1 (wf.parents_mem whole passed parent), (fine p parent).2⟩
    have started := Precedence.started_iff wf.wellFounded rule node.serviceId
    rwa [forall_prop_of_true (passes node listed)] at started
  · intro policy node listed
    have going : dag.failurePolicy ≠ .skipDependents := by
      rw [policy]
      exact nofun
    rw [progress.all going]
    exact passes node listed
  · intro policy before call e made error
    exact absurd error (progress.no_failure once policy made)

theorem DagAborts.run (wf : dag.WellFormed) (aborts : DagAborts host caller body value dag log calls) (e : String) :
    DagRun host caller body value dag log calls (.error (.err e)) := by
  obtain ⟨policy, done, before, last, st, progress, rfl, calls_⟩ := aborts
  have once := calls_.nodup wf prefix_rfl
  have onceBefore : (called before).Nodup := by
    rw [called_append] at once
    exact once.of_append_left
  refine ⟨once, fun id there => wf.node_of_mem (calls_.order.subset there), calls_.parents,
    calls_.bodies_merged, ?_, ?_, ?_⟩
  · intro other
    rw [policy] at other
    cases other
  · intro other
    rw [policy] at other
    cases other
  · intro _ earlier call error made failed
    refine ⟨?_, e, rfl⟩
    rcases prefix_concat_iff.mp made with whole | inside
    · exact whole.symm
    · exact absurd failed (progress.no_failure onceBefore policy inside)

theorem DagProgress.start : DagProgress host caller body value dag log [] [] {} := by
  have nothing : ∀ before (call : Call), ¬ before ++ [call] <+: [] := by simp
  refine ⟨⟨.slnil, ?_, ?_⟩, ?_, ?_, fun _ => rfl, nofun, nofun⟩
  · exact fun before call made => absurd made (nothing before call)
  · exact fun before call made => absurd made (nothing before call)
  · exact fun id resp => ⟨nofun, nofun⟩
  · simp

end

/-- A graph whose layers partition its nodes, with parents in earlier layers, is executed in order: every node at most
once, after its parents and with their answers, and a failing call has the effect that the policy names. -/
theorem execDag_run {host : Host} {caller : Caller} {body : Bytes} {value : Json} {dag : DAGTable}
    {instr : Instruction} {plan : ExecutionPlan} (table : plan.dagTables[instr.a.toNat]? = some dag)
    (wf : dag.WellFormed) (json : host.fromSlice body = .ok value) (log : List Call) :
    ∃ calls, (execDag host caller body instr plan log).2 = log ++ calls ∧
      DagRun host caller body value dag log calls (execDag host caller body instr plan log).1 := by
  have start : DagProgress host caller body value dag log [] [] {} := .start
  obtain ⟨calls, made, ended⟩ :=
    dagLoop_progress wf json dag.layers.flatten (nil_append _).symm start
  rw [append_nil] at made ended
  unfold execDag
  simp only [table]
  rcases loop : dagLoop host caller body dag dag.layers.flatten {} log with ⟨out, log'⟩
  rw [loop] at made ended
  rcases ended with ⟨st, rfl, progress⟩ | ⟨⟨e, rfl⟩, aborts⟩
  · exact ⟨calls, made, progress.run wf _⟩
  · exact ⟨calls, made, aborts.run wf e⟩

def chain : DAGTable where
  nodes := [⟨1, 0, []⟩, ⟨2, 1, [1]⟩]
  layers := [[1], [2]]
  terminalNodes := [2]
  failurePolicy := .skipDependents

theorem chain_wellFormed : chain.WellFormed where
  nodes := by decide
  once := by decide
  earlier := by
    intro node listed parent up
    simp only [chain, mem_cons, not_mem_nil, or_false] at listed
    rcases listed with rfl | rfl
    · cases up
    · obtain rfl := mem_singleton.mp up
      exact ⟨0, 1, by omega, [1], rfl, [2], rfl, by simp, by simp⟩

/-- Service 1 fails, so service 2 is not called. -/
theorem execDag_run_chain :
    let plan : ExecutionPlan := { ExecutionPlan.new "r" with dagTables := [chain] }
    let out := execDag .blank (fun _ _ => .error "down") braces ⟨.dag, 0, 0, 0, 0⟩ plan []
    out.2 = [⟨1, braces, 0⟩] ∧ ∃ calls, out.2 = [] ++ calls ∧
      DagRun .blank (fun _ _ => .error "down") braces (.obj []) chain [] calls out.1 := by
  refine ⟨by decide, ?_⟩
  exact execDag_run rfl chain_wellFormed rfl []

end FlowRulZ
