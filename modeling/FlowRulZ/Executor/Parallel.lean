import FlowRulZ.Dsl.FanOut
import FlowRulZ.Executor.DagResults
import FlowRulZ.Lib.ForkJoin

/-! # The threads of a parallel step

`exec_parallel` starts a thread for each service.  Here the threads take turns, action by
action, in any order; the model with whole threads one after the other is the case in which
all turns of a thread come together.  The answers then go through the `_parallel` key of
the body to `exec_collect`, which cannot read them back if they are nested too deep.
-/

namespace FlowRulZ

open List

open ForkJoin

def parallelRows (instr : Instruction) (plan : ExecutionPlan) : Option (List ServiceEntry) :=
  (List.range instr.a.toNat).mapM fun offset => plan.services.rows[instr.b.toNat + offset]?

def parallelCalls (body : Bytes) (entries : List ServiceEntry) : List Call :=
  entries.map fun entry => ⟨entry.id, body, 0⟩

def parallelPool (schedule : List Nat) (caller : Caller) (body : Bytes)
    (entries : List ServiceEntry) (log : List Call) : Pool Call Bytes String :=
  (Pool.start entries.length log).along caller (parallelCalls body entries) schedule

/-- `exec_parallel` with threads that take turns by a schedule. -/
def execParallelAlong (host : Host) (schedule : List Nat) (caller : Caller) (body : Bytes)
    (instr : Instruction) (plan : ExecutionPlan) : Exec Bytes := fun log =>
  match parallelRows instr plan with
  | none => (.error .panic, log)
  | some entries =>
    let pool := parallelPool schedule caller body entries log
    match pool.err with
    | some e => (.error (.err e), pool.log)
    | none => (.ok (mergeParallel host body pool.slots), pool.log)

/-- What a parallel step makes of the body if the services answer so, and what a collect step makes of that. -/
structure Collected (host : Host) (body : Bytes) (responses : List Bytes) (merged : Json.Fields) :
    Prop where
  array : merged.get? "_parallel" = some (.arr (responses.map host.valueOrText))
  kept : ∀ fields, host.fromSlice body = .ok (.obj fields) →
    ∀ key ≠ "_parallel", merged.get? key = Json.Fields.get? fields key
  collect : host.ReadsBack (.obj merged) →
    execCollect host (host.toVec (.obj merged)) = .ok (host.toVec (.arr (responses.map host.valueOrText)))

section

variable {host : Host} {body : Bytes} {responses : List Bytes}

theorem mergeParallel_collected (limited : ∀ value, host.fromSlice body = .ok value → value.Within 127)
    (shallow : ∀ resp ∈ responses, (host.valueOrText resp).Within 125) :
    ∃ merged, mergeParallel host body (responses.map some) = host.toVec (.obj merged) ∧
      Collected host body responses merged := by
  let value := Json.arr (responses.map host.valueOrText)
  obtain ⟨old, written, fits, within⟩ : ∃ old : Json.Fields,
      mergeParallel host body (responses.map some) = host.toVec (.obj (old.insert "_parallel" value)) ∧
        (∀ fields, host.fromSlice body = .ok (.obj fields) → old = fields) ∧ Json.Within 127 (.obj old) := by
    rw [mergeParallel, map_map]
    refine ⟨_, rfl, fun fields read => by simp only [read], ?_⟩
    split
    next read => exact limited _ read
    next => exact forall_mem_nil _
  have array : (old.insert "_parallel" value).get? "_parallel" = some value :=
    Json.Fields.get?_insert_self _ _ _
  refine ⟨old.insert "_parallel" value, written, array, ?_, ?_⟩
  · intro fields read key apart
    rw [Json.Fields.get?_insert_other apart, fits fields read]
  · intro back
    have read := back fun field inside => by
      rcases Json.Fields.mem_insert inside with rfl | before
      · exact forall_mem_map.mpr shallow
      · exact within field before
    simp only [execCollect, read, array]
    rfl

end

section

variable {caller : Caller} {body : Bytes} {entries : List ServiceEntry} {i : Nat}

theorem along_thread (caller : Caller) (body : Bytes) {pool : Pool Call Bytes String}
    (there : i < entries.length) (spawned : pool.workers[i]? = some .spawned) :
    pool.along caller (parallelCalls body entries) [i, i, i] =
      let after := thread caller body (entries.map (·.id)) i ⟨pool.slots, pool.err⟩ pool.log
      ⟨pool.workers.set i .finished, after.1.answers, after.1.err, after.2⟩ := by
  have call : (parallelCalls body entries)[i]? = some ⟨entries[i].id, body, 0⟩ := by
    simp [parallelCalls, there]
  have svcId : (entries.map (·.id))[i]? = some entries[i].id := by simp [there]
  rw [Pool.along_thrice call spawned, thread, svcId]
  cases err : pool.err with
  | some e => simp [Pool.move, err]
  | none =>
    cases answered : caller pool.log ⟨entries[i].id, body, 0⟩ <;> simp [Pool.move, err, answered]

/-- Whole threads, one after the other, are threads whose turns come together. -/
theorem threads_eq_along (caller : Caller) (body : Bytes) (entries : List ServiceEntry) (order : List Nat) :
    ∀ pool : Pool Call Bytes String, order.Nodup →
      (∀ i ∈ order, i < entries.length ∧ pool.workers[i]? = some .spawned) →
      let after := pool.along caller (parallelCalls body entries) (order.flatMap fun i => [i, i, i])
      threads caller body (entries.map (·.id)) order ⟨pool.slots, pool.err⟩ pool.log =
        (⟨after.slots, after.err⟩, after.log) := by
  induction order with
  | nil => exact fun pool _ _ => rfl
  | cons i order ih =>
    intro pool nodup ready
    obtain ⟨fresh, nodup⟩ := nodup_cons.mp nodup
    obtain ⟨there, spawned⟩ := ready i mem_cons_self
    have first := along_thread caller body there spawned
    have rest := ih (pool.along caller (parallelCalls body entries) [i, i, i]) nodup (by
      intro j later
      have apart : i ≠ j := fun same => fresh (same ▸ later)
      rw [first]
      simpa [getElem?_set_ne apart] using ready j (mem_cons_of_mem _ later))
    have split : (i :: order).flatMap (fun i => [i, i, i]) =
        [i, i, i] ++ order.flatMap fun i => [i, i, i] := flatMap_cons
    rw [threads, split]
    simp only [Pool.along, foldl_append] at first rest ⊢
    rw [← rest, first]

variable {host : Host} {instr : Instruction} {plan : ExecutionPlan} {log : List Call}

/-- The step that the machine executes is one with a schedule. -/
theorem execParallel_eq_along (host : Host) (scheduler : Scheduler) (caller : Caller) (body : Bytes)
    (instr : Instruction) (plan : ExecutionPlan) (log : List Call) :
    execParallel host scheduler caller body instr plan log =
      execParallelAlong host ((scheduler.order log instr.a.toNat).flatMap fun i => [i, i, i])
        caller body instr plan log := by
  have once := scheduler.order_perm log instr.a.toNat
  cases listed : parallelRows instr plan with
  | none =>
    rw [execParallelAlong, listed]
    unfold parallelRows at listed
    simp only [execParallel, listed]
  | some entries =>
    have length : entries.length = instr.a.toNat := by
      simpa using congrArg List.length (Traverse.mapM_eq_some _ _ listed)
    have same := threads_eq_along caller body entries (scheduler.order log instr.a.toNat)
      (Pool.start entries.length log) (once.nodup_iff.mpr nodup_range) (by
        intro i running
        have small : i < entries.length := length ▸ mem_range.mp (once.subset running)
        exact ⟨small, by simp [Pool.start, small]⟩)
    simp only [Pool.start, ← length] at same
    rw [execParallelAlong, listed]
    unfold parallelRows at listed
    simp only [← length] at listed ⊢
    simp only [execParallel, ← length, listed, same]
    rfl

end

def twoAnswers : Json.Fields := [("_parallel", .arr [.str "a", .str "b"])]

def letters : Caller := fun _ call => .ok [97 + call.svcId.toUInt8]

/-- A host that reads one array, and nothing that has it inside. -/
def arrayHost (items : List Json) (limit : String) : Host := { Host.terse with
  fromSlice := fun bytes =>
    if bytes = Utf8.encode (String.ofList (Json.arr items).print) then .ok (.arr items) else .error limit }

theorem arrayHost_refuses (items : List Json) (limit : String) :
    let answer := String.ofList (Json.arr items).print
    let body := Utf8.encode ("\x7b\"_parallel\":[" ++ answer ++ "]\x7d")
    mergeParallel (arrayHost items limit) [] [some (Utf8.encode answer)] = body ∧
      execCollect (arrayHost items limit) body = .error s!"Collect: failed to parse body: {limit}" := by
  intro answer body
  obtain ⟨rest, first⟩ : ∃ rest, Utf8.encode answer = 0x5B :: rest := by
    simp only [answer, Utf8.encode, String.toList_ofList, Json.print, cons_append, flatMap_cons]
    exact ⟨_, rfl⟩
  obtain ⟨rest', first'⟩ : ∃ rest, body = 0x7B :: rest := by
    simp only [body, Utf8.encode, String.toList_append, flatMap_append]
    exact ⟨_, rfl⟩
  constructor
  · have read : (arrayHost items limit).valueOrText (Utf8.encode answer) = .arr items := by
      simp [Host.valueOrText, arrayHost, answer]
    have empty : (arrayHost items limit).fromSlice [] = .error limit := by
      simp only [arrayHost]
      rw [if_neg (by rw [first]; simp)]
    simp only [mergeParallel, map_cons, map_nil, Option.getD_some, read, empty]
    refine congrArg Utf8.encode (String.toList_inj.mp ?_)
    simp only [arrayHost, Host.terse, answer, String.toList_append, String.toList_ofList, Json.Fields.insert]
    generalize Json.arr items = value
    simp only [Json.print, Json.printFields, Json.printItems, JsonGrammar.separated, intercalate_singleton,
      cons_append, append_assoc]
    rfl
  · have refused : (arrayHost items limit).fromSlice body = .error limit := by
      simp only [arrayHost]
      rw [if_neg (by rw [first, first']; simp)]
    rw [execCollect, refused]

def nestedArrays : Nat → Json
  | 0 => .arr []
  | n + 1 => .arr [nestedArrays n]

end FlowRulZ
