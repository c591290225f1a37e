import FlowRulZ.Dsl.Layout
import FlowRulZ.Executor.Services
import FlowRulZ.Lib.Traverse

/-! # Fan-outs

A fan-out becomes a count and the id of its first target, and the executor takes that many
rows of the service table from there on.  Whether these are the targets depends on the
names the table got before.
-/

namespace FlowRulZ

open List

open Interner Traverse

namespace Compiler

variable (self : Compiler)

def namedBy : ASTNode → List String
  | .next target | .async target | .fallback target => [target]
  | .parallel targets | .emit targets => targets
  | .dag body => (self.topologicalSort (dagDeps body)).flatten
  | _ => []

def serviceNames (nodes : List ASTNode) : List String := firstUses [] (nodes.flatMap self.namedBy)

/-! ## The service table of a plan -/

variable {self} {st st' : State} {node : ASTNode} {nodes pre post : List ASTNode}

theorem foldl_dagNode (deps : Deps) (layerIdx : Nat) (layer : List String) :
    ∀ b : DagBuild, (layer.foldl (dagNode deps layerIdx) b).services.entries = firstUses b.services.entries layer := by
  induction layer with
  | nil => exact fun b => rfl
  | cons name layer ih =>
    intro b
    rw [foldl_cons, ih]
    simp only [dagNode, add_entries]
    rfl

theorem foldl_dagLayer (deps : Deps) (layers : List (Nat × List String)) :
    ∀ b : DagBuild, (layers.foldl (dagLayer deps) b).services.entries =
      firstUses b.services.entries (layers.flatMap Prod.snd) := by
  induction layers with
  | nil => exact fun b => rfl
  | cons layer layers ih =>
    intro b
    have one : (dagLayer deps b layer).services.entries = firstUses b.services.entries layer.2 :=
      foldl_dagNode deps layer.1 layer.2 b
    rw [foldl_cons, ih, one, flatMap_cons, firstUses_append]

theorem checkedDeps_ok {body : String} {deps : Deps} (h : self.checkedDeps body = .ok deps) : deps = dagDeps body := by
  simp only [checkedDeps] at h
  repeat' split at h
  all_goals simp only [Except.ok.injEq, reduceCtorEq] at h
  exact h.symm

theorem numbered_names (layers : List (List String)) :
    (layers.zipIdx.map Prod.swap).flatMap Prod.snd = layers.flatten := by
  rw [flatMap_map]
  exact congrArg List.flatten (zipIdx_map_fst 0 _)

theorem dagLayers_services (services : ServiceTable) (deps : Deps) : (self.dagLayers services deps).services.entries =
      firstUses services.entries (self.topologicalSort deps).flatten := by
  rw [dagLayers, foldl_dagLayer, numbered_names]

variable {head : UInt8 → UInt16 → Instruction} {targets : List String}

theorem compileFanOut_services (h : compileFanOut st head targets = .ok st') :
    st'.plan.services.entries = firstUses st.plan.services.entries targets := by
  obtain ⟨first, rest, -, rfl⟩ := compileFanOut_ok h
  exact addAll_entries targets st.plan.services

theorem compileNode_services (h : self.compileNode st node = .ok st') :
    st'.plan.services.entries = firstUses st.plan.services.entries (self.namedBy node) := by
  cases node with
  | parallel targets | emit targets => exact compileFanOut_services h
  | label name =>
    obtain ⟨-, rfl⟩ := compileNode_label h
    rfl
  | dag body =>
    obtain ⟨deps, id, checked, rfl⟩ := compileNode_dag h
    rw [checkedDeps_ok checked]
    exact dagLayers_services st.plan.services _
  | next target | async target | fallback target =>
    cases h
    exact addAll_entries [_] st.plan.services
  | _ =>
    cases h
    rfl

theorem compileNodes_services (h : self.compileNodes st nodes = .ok st') : st'.plan.services.entries =
      firstUses st.plan.services.entries (nodes.flatMap self.namedBy) := by
  induction nodes generalizing st with
  | nil => cases h; rfl
  | cons node nodes ih =>
    obtain ⟨mid, one, rest⟩ := compileNodes_cons h
    rw [ih rest, compileNode_services one, flatMap_cons, firstUses_append]

theorem services_grow (h : self.compileNodes st nodes = .ok st') :
    st.plan.services.entries <+: st'.plan.services.entries := by
  rw [compileNodes_services h]
  exact prefix_firstUses _ _

variable {ruleId : String} {plan : ExecutionPlan}

theorem compile_services (h : self.compile nodes ruleId = .ok plan) :
    plan.services.entries = self.serviceNames nodes := by
  obtain ⟨schema, last, loop, rfl⟩ := compile_loop h
  rw [(finish_frame schema last).1, compileNodes_services loop]
  rfl

/-! ## The instruction of a fan-out -/

theorem compileFanOut_head (h : compileFanOut st head targets = .ok st') :
    ∃ first rest, targets = first :: rest ∧ first ∈ st'.plan.services.entries ∧
      st'.instructions[st.instructions.length]? = some (head (UInt8.ofNat targets.length)
        (UInt16.ofNat (st'.plan.services.entries.idxOf first))) := by
  have table := compileFanOut_services h
  cases targets with
  | nil => cases h
  | cons first rest =>
    have inside := mem_add st.plan.services first
    have grows : (st.plan.services.add first).1.entries <+: st'.plan.services.entries := by
      rw [table, ← addAll_entries, addAll, addAll_entries]
      exact prefix_firstUses rest _
    refine ⟨first, rest, rfl, grows.subset inside, ?_⟩
    rw [idxOf_stable inside grows, ← add_id]
    simp only [compileFanOut, addAll, Except.ok.injEq] at h
    subst h
    simp [addAll_length]

theorem compile_fanOut_at (h : self.compile (pre ++ node :: post) ruleId = .ok plan)
    (fanOut : ∀ st : State, self.compileNode st node = compileFanOut st head targets)
    (notNext : ∀ count first, (head count first).op ≠ .next)
    (notAsync : ∀ count first, (head count first).op ≠ .async) :
    ∃ first rest, targets = first :: rest ∧ first ∈ plan.services.entries ∧
      plan.instructions[codeLen pre]? = some (head (UInt8.ofNat targets.length)
        (UInt16.ofNat (plan.services.entries.idxOf first))) := by
  obtain ⟨schema, last, loop, rfl⟩ := compile_loop h
  obtain ⟨before, after, left, one, right⟩ := compileNodes_at loop
  rw [fanOut] at one
  obtain ⟨first, rest, split, inside, here⟩ := compileFanOut_head one
  have grows := services_grow right
  have length : before.instructions.length = codeLen pre := by simpa using compileNodes_length left
  refine ⟨first, rest, split, ?_, ?_⟩
  · rw [(finish_frame schema last).1]
    exact grows.subset inside
  · rw [(finish_frame schema last).1, idxOf_stable inside grows]
    rw [length] at here
    exact finish_keeps (compileNodes_frame loop).instructions (compileNodes_keeps right here)
      (notNext _ _) (notAsync _ _)

end Compiler

/-! ## The rows that are called -/

section

variable {caller : Caller} {body : Bytes} {table : ServiceTable}

def Willing (caller : Caller) : Prop := ∀ log call, ∃ resp, caller log call = .ok resp

def callNames (table : ServiceTable) (calls : List Call) : List (Option String) :=
  calls.map fun call => (table.get? call.svcId).map (·.name)

def window (names : List String) (first count : Nat) : List (Option String) :=
  (List.range' first count).map fun row => names[row % 2 ^ 16]?

def rowCalls (body : Bytes) (rows : List Nat) : List Call :=
  rows.map fun row => ⟨UInt16.ofNat row, body, 0⟩

theorem callNames_rowCalls (rows : List Nat) :
    callNames table (rowCalls body rows) = rows.map fun row => table.entries[row % 2 ^ 16]? := by
  simp only [callNames, rowCalls, ServiceTable.get?, ServiceTable.rows_getElem?, map_map]
  apply map_congr_left
  intro row _
  simp [Function.comp_def]

def anyFails (caller : Caller) : List Call → List Call → Bool
  | _, [] => false
  | log, call :: rest => (caller log call).toOption.isNone || anyFails caller (log ++ [call]) rest

theorem Willing.anyFails (willing : Willing caller) (log calls : List Call) : anyFails caller log calls = false := by
  induction calls generalizing log with
  | nil => rfl
  | cons call calls ih =>
    obtain ⟨resp, answered⟩ := willing log call
    simp [FlowRulZ.anyFails, answered, Except.toOption, ih]

theorem emitLoop_spec (caller : Caller) (body : Bytes) (count : Nat) :
    ∀ first log, (∀ offset < count, first + offset < table.entries.length) →
      ∃ failed more, emitLoop caller body table.rows first count log =
        (match failed with | none => .ok () | some e => .error (.err e), log ++ more) ∧
      (failed = none ↔ anyFails caller log more = false) ∧
      (failed = none → more = rowCalls body (List.range' first count)) := by
  induction count with
  | zero => exact fun first log _ => ⟨none, [], by simp [emitLoop], by simp [anyFails], fun _ => rfl⟩
  | succ count ih =>
    intro first log inside
    have here : table.entries[first]? = some (table.entries.get ⟨first, inside 0 (by omega)⟩) := by simp
    simp only [emitLoop, ServiceTable.rows_getElem?, here, Option.map_some]
    cases answer : caller log ⟨UInt16.ofNat first, body, 0⟩ with
    | error e => exact ⟨some e, [_], rfl, by simp [anyFails, answer, Except.toOption], nofun⟩
    | ok resp =>
      obtain ⟨failed, more, made, ends, all⟩ := ih (first + 1) (log ++ [⟨UInt16.ofNat first, body, 0⟩])
        fun offset small => by have := inside (offset + 1) (by omega); omega
      refine ⟨failed, _ :: more, by simpa using made, ?_, fun fine => ?_⟩
      · rw [ends]
        simp [anyFails, answer, Except.toOption]
      · rw [all fine]
        simp [rowCalls, range'_succ]

theorem emitLoop_outside (willing : Willing caller) (count : Nat) :
    ∀ first log, 0 < count → table.entries.length < first + count →
      (emitLoop caller body table.rows first count log).1 = .error .panic := by
  induction count with
  | zero => intro first log positive; omega
  | succ count ih =>
    intro first log _ outside
    obtain ⟨resp, answered⟩ := willing log ⟨UInt16.ofNat first, body, 0⟩
    simp only [emitLoop, ServiceTable.rows_getElem?]
    cases here : table.entries[first]? with
    | none => rfl
    | some name =>
      have inside : first < table.entries.length := (List.getElem?_eq_some_iff.mp here).1
      simp only [Option.map_some, answered]
      exact ih (first + 1) _ (by omega) (by omega)

theorem parallel_ids {first count : Nat} (inside : ∀ offset < count, first + offset < table.entries.length) :
    ∃ entries, ((List.range count).mapM fun offset => table.rows[first + offset]?) = some entries ∧
      ∀ i < count, (entries.map (·.id))[i]? = some (UInt16.ofNat (first + i)) := by
  have there : ∀ i < count, table.entries[first + i]? ≠ none := by
    intro i small
    simpa using inside i small
  cases found : (List.range count).mapM fun offset => table.rows[first + offset]? with
  | none =>
    obtain ⟨offset, small, missing⟩ := (mapM_eq_none _).mp found
    rw [ServiceTable.rows_getElem?, Option.map_eq_none_iff] at missing
    exact absurd missing (there offset (mem_range.mp small))
  | some entries =>
    refine ⟨entries, rfl, fun i small => ?_⟩
    obtain ⟨name, here⟩ := Option.ne_none_iff_exists'.mp (there i small)
    have row := congrArg (·[i]?) (mapM_eq_some _ _ found)
    simp only [getElem?_map, getElem?_range small, Option.map_some, ServiceTable.rows_getElem?, here] at row
    obtain ⟨entry, same, equal⟩ := Option.map_eq_some_iff.mp row
    cases equal
    simp [same]

theorem threads_stopped (svcs : List UInt16) (order : List Nat) : ∀ parts log, parts.err.isSome →
    threads caller body svcs order parts log = (parts, log) := by
  induction order with
  | nil => exact fun parts log _ => rfl
  | cons i order ih =>
    intro parts log stopped
    obtain ⟨e, err⟩ := Option.isSome_iff_exists.mp stopped
    have skipped : thread caller body svcs i parts log = (parts, log) := by simp [thread, err]
    rw [threads, skipped]
    exact ih parts log stopped

/-- Threads make their calls in the order they run in, up to the first one that fails. -/
theorem threads_spec (caller : Caller) (body : Bytes) {svcs : List UInt16} {id : Nat → UInt16} (order : List Nat) :
    ∀ parts log, parts.err = none → (∀ i ∈ order, svcs[i]? = some (id i)) →
      ∃ more, (threads caller body svcs order parts log).2 = log ++ more ∧
        ((threads caller body svcs order parts log).1.err = none ↔ anyFails caller log more = false) ∧
        ((threads caller body svcs order parts log).1.err = none → more = order.map fun i => ⟨id i, body, 0⟩) := by
  induction order with
  | nil => exact fun parts log fine _ => ⟨[], by simp [threads], by simp [threads, anyFails, fine], fun _ => rfl⟩
  | cons i order ih =>
    intro parts log fine known
    have here := known i mem_cons_self
    unfold threads
    cases answer : caller log ⟨id i, body, 0⟩ with
    | error e =>
      have one : thread caller body svcs i parts log = ({ parts with err := some e }, log ++ [⟨id i, body, 0⟩]) := by
        simp only [thread, fine, here, answer]
      rw [one, threads_stopped svcs order _ _ rfl]
      exact ⟨[_], rfl, by simp [anyFails, answer, Except.toOption], nofun⟩
    | ok resp =>
      have one : thread caller body svcs i parts log =
          ({ parts with answers := parts.answers.set i (some resp) }, log ++ [⟨id i, body, 0⟩]) := by
        simp only [thread, fine, here, answer]
      rw [one]
      obtain ⟨more, made, ends, all⟩ := ih { parts with answers := parts.answers.set i (some resp) }
        (log ++ [⟨id i, body, 0⟩]) fine fun j later => known j (mem_cons_of_mem _ later)
      refine ⟨_ :: more, by simpa using made, ?_, fun fine => by rw [all fine]; rfl⟩
      rw [ends]
      simp [anyFails, answer, Except.toOption]

variable {host : Host} {scheduler : Scheduler} {instr : Instruction} {plan : ExecutionPlan} {log : List Call}

theorem execParallel_spec (host : Host) (scheduler : Scheduler) (caller : Caller) (body : Bytes) (log : List Call)
    (inside : ∀ offset < instr.a.toNat, instr.b.toNat + offset < plan.services.entries.length) :
    (execParallel host scheduler caller body instr plan log).1 ≠ .error .panic ∧
      ∃ more, (execParallel host scheduler caller body instr plan log).2 = log ++ more ∧
        ((∃ out, (execParallel host scheduler caller body instr plan log).1 = .ok out) ↔
          anyFails caller log more = false) ∧
        (anyFails caller log more = false →
          ∃ rows, rows.Perm (List.range' instr.b.toNat instr.a.toNat) ∧ more = rowCalls body rows) := by
  obtain ⟨entries, found, ids⟩ := parallel_ids inside
  have order := scheduler.order_perm log instr.a.toNat
  have known : ∀ i ∈ scheduler.order log instr.a.toNat,
      (entries.map (·.id))[i]? = some (UInt16.ofNat (instr.b.toNat + i)) :=
    fun i running => ids i (mem_range.mp (order.subset running))
  obtain ⟨more, made, ends, all⟩ := threads_spec caller body (scheduler.order log instr.a.toNat)
    { answers := List.replicate instr.a.toNat none } log rfl known
  have ran : (execParallel host scheduler caller body instr plan log).1 ≠ .error .panic ∧
      (execParallel host scheduler caller body instr plan log).2 = log ++ more ∧
      ((∃ out, (execParallel host scheduler caller body instr plan log).1 = .ok out) ↔
        (threads caller body (entries.map (·.id)) (scheduler.order log instr.a.toNat)
          { answers := List.replicate instr.a.toNat none } log).1.err = none) := by
    simp only [execParallel, found]
    split
    next err => simp [made, err]
    next err => simp [made, err]
  refine ⟨ran.1, more, ran.2.1, ran.2.2.trans ends, fun fine => ?_⟩
  refine ⟨(scheduler.order log instr.a.toNat).map (instr.b.toNat + ·), ?_, ?_⟩
  · rw [range'_eq_map_range]
    exact order.map _
  · rw [all (ends.mpr fine), rowCalls, map_map]
    rfl

theorem execParallel_outside (positive : 0 < instr.a.toNat)
    (outside : plan.services.entries.length < instr.b.toNat + instr.a.toNat) :
    (execParallel host scheduler caller body instr plan log).1 = .error .panic := by
  have missing : ((List.range instr.a.toNat).mapM
      fun offset => plan.services.rows[instr.b.toNat + offset]?) = none := by
    apply (mapM_eq_none _).mpr
    refine ⟨instr.a.toNat - 1, mem_range.mpr (by omega), ?_⟩
    rw [ServiceTable.rows_getElem?, Option.map_eq_none_iff, getElem?_eq_none_iff]
    omega
  simp only [execParallel, missing]

end

/-! ## Fan-outs that call their targets -/

/-- No row outside the table is read, and if all calls are answered, the services called are the given ones. -/
def CallsServices {α : Type} (plan : ExecutionPlan) (exec : Caller → Exec α)
    (called : List (Option String) → Prop) : Prop :=
  ∀ caller log, (exec caller log).1 ≠ .error .panic ∧ (Willing caller → ∃ calls, (exec caller log).2 = log ++ calls ∧
      called (callNames plan.services calls))

/-- The instruction of a fan-out calls its targets, that of an emit in their order. -/
def CallsTargets (plan : ExecutionPlan) (place : Nat) : ASTNode → Prop
  | .emit targets => ∃ instr, plan.instructions[place]? = some instr ∧ instr.op = .emit ∧
      ∀ body, CallsServices plan (fun caller => execEmit caller body instr plan) (· = targets.map some)
  | .parallel targets => ∃ instr, plan.instructions[place]? = some instr ∧ instr.op = .parallel ∧
      ∀ host scheduler body, CallsServices plan (fun caller => execParallel host scheduler caller body instr plan)
        (·.Perm (targets.map some))
  | _ => True

def FanOutsCall (nodes : List ASTNode) (plan : ExecutionPlan) : Prop :=
  ∀ pre node post, nodes = pre ++ node :: post → CallsTargets plan (codeLen pre) node

/-- A count and a first id can stand for the targets. -/
structure Consecutive (names targets : List String) (first : Nat) : Prop where
  head : names[first]? = targets.head?
  id : first < 2 ^ 16
  count : targets.length < 2 ^ 8
  rows : first + targets.length ≤ names.length

/-- The targets of a fan-out are consecutive in the table, those of an emit in their order. -/
def FitsTable (names : List String) : ASTNode → Prop
  | .emit targets => ∃ first, Consecutive names targets first ∧ window names first targets.length = targets.map some
  | .parallel targets => ∃ first, Consecutive names targets first ∧
      (window names first targets.length).Perm (targets.map some)
  | _ => True

def FanOutsFit (names : List String) (nodes : List ASTNode) : Prop := ∀ node ∈ nodes, FitsTable names node

/-- What execution does with a count and a first row, whichever of the two it is: `same` says how the names called
compare to the rows. -/
structure ReadsRows {α : Type} (plan : ExecutionPlan) (exec : Caller → Exec α)
    (same : List (Option String) → List (Option String) → Prop) (first count : Nat) : Prop where
  inside : first + count ≤ plan.services.entries.length →
    ∀ caller log, (exec caller log).1 ≠ .error .panic
  outside : 0 < count → plan.services.entries.length < first + count →
    ∀ caller log, Willing caller → (exec caller log).1 = .error .panic
  calls : first + count ≤ plan.services.entries.length → ∀ caller log, Willing caller →
    ∃ calls, (exec caller log).2 = log ++ calls ∧
      same (callNames plan.services calls) (window plan.services.entries first count)

theorem lt_of_fits {first count length : Nat} (fits : first + count ≤ length) : ∀ offset < count, first + offset < length :=
  fun offset small => by omega

theorem execEmit_reads (body : Bytes) (instr : Instruction) (plan : ExecutionPlan) :
    ReadsRows plan (fun caller => execEmit caller body instr plan) Eq instr.b.toNat instr.a.toUInt8.toNat where
  inside fits caller log := by
    obtain ⟨failed, more, made, -⟩ := emitLoop_spec caller body _ _ log (lt_of_fits fits)
    rw [execEmit, made]
    cases failed <;> simp
  outside positive beyond _ _ willing := emitLoop_outside willing _ _ _ positive beyond
  calls fits caller log willing := by
    obtain ⟨failed, more, made, ends, all⟩ := emitLoop_spec caller body _ _ log (lt_of_fits fits)
    refine ⟨more, congrArg Prod.snd made, ?_⟩
    rw [all (ends.mpr (willing.anyFails log more))]
    exact callNames_rowCalls _

theorem execParallel_reads (host : Host) (scheduler : Scheduler) (body : Bytes)
    (instr : Instruction) (plan : ExecutionPlan) :
    ReadsRows plan (fun caller => execParallel host scheduler caller body instr plan) List.Perm
      instr.b.toNat instr.a.toNat where
  inside fits caller log := (execParallel_spec host scheduler caller body log (lt_of_fits fits)).1
  outside positive beyond _ _ _ := execParallel_outside positive beyond
  calls fits caller log willing := by
    obtain ⟨-, more, made, -, all⟩ := execParallel_spec host scheduler caller body log (lt_of_fits fits)
    obtain ⟨rows, order, rfl⟩ := all (willing.anyFails log more)
    refine ⟨_, made, ?_⟩
    rw [callNames_rowCalls]
    exact order.map _

theorem window_head {names : List String} {target : String} {first count : Nat}
    (nodup : names.Nodup) (cut : first = names.idxOf target % 2 ^ 16)
    (inside : some target ∈ window names first count) : names[first]? = some target := by
  obtain ⟨row, -, found⟩ := mem_map.mp inside
  obtain ⟨small, rfl⟩ := List.getElem?_eq_some_iff.mp found
  have place : names.idxOf names[row % 2 ^ 16] = row % 2 ^ 16 := nodup.idxOf_getElem _ small
  rw [place, Nat.mod_mod] at cut
  rw [cut, getElem?_eq_getElem small]

section

variable {α : Type} {plan : ExecutionPlan} {exec : Caller → Exec α}
  {same : List (Option String) → List (Option String) → Prop} {first count : Nat}

/-- A fan-out calls its targets if and only if they are consecutive. -/
theorem ReadsRows.callsServices_iff (reads : ReadsRows plan exec same first count)
    (equivalence : Equivalence same) (perm : ∀ left right, same left right → left.Perm right)
    (target : String) (rest : List String)
    (counted : count = (target :: rest).length % 2 ^ 8)
    (cut : first = plan.services.entries.idxOf target % 2 ^ 16)
    (known : target ∈ plan.services.entries) :
    CallsServices plan exec (same · ((target :: rest).map some)) ↔
      ∃ first, Consecutive plan.services.entries (target :: rest) first ∧
        same (window plan.services.entries first (target :: rest).length) ((target :: rest).map some) := by
  constructor
  · intro calls
    obtain ⟨safe, named⟩ := calls (fun _ _ => .ok []) []
    have willing : Willing fun _ _ => .ok [] := fun _ _ => ⟨[], rfl⟩
    have fits : first + count ≤ plan.services.entries.length := by
      by_contra beyond
      have place := idxOf_lt_length_of_mem known
      exact safe (reads.outside (by omega) (by omega) _ _ willing)
    obtain ⟨made, log, targets⟩ := named willing
    obtain ⟨made', log', rows⟩ := reads.calls fits _ [] willing
    obtain rfl : made = made' := by simpa using log.symm.trans log'
    have agree := equivalence.trans (equivalence.symm rows) targets
    have reordered := perm _ _ agree
    have length : count = (target :: rest).length := by simpa [window] using reordered.length_eq
    refine ⟨first, ⟨?_, ?_, ?_, ?_⟩, ?_⟩
    · exact window_head plan.services.nodup cut (reordered.mem_iff.mpr (by simp))
    · rw [cut]
      exact Nat.mod_lt _ (by decide)
    · rw [← length, counted]
      exact Nat.mod_lt _ (by decide)
    · rw [← length]
      exact fits
    · rw [← length]
      exact agree
  · intro called
    obtain ⟨place, ⟨head, id, small, fits⟩, agree⟩ := called
    obtain ⟨inside, found⟩ := List.getElem?_eq_some_iff.mp head
    obtain rfl : first = place := by
      rw [cut, ← found, plan.services.nodup.idxOf_getElem _ inside, Nat.mod_eq_of_lt id]
    rw [Nat.mod_eq_of_lt small] at counted
    subst counted
    intro caller log
    refine ⟨reads.inside fits caller log, fun willing => ?_⟩
    obtain ⟨made, grown, rows⟩ := reads.calls fits caller log willing
    exact ⟨made, grown, equivalence.trans rows agree⟩

end

namespace Compiler

variable {self : Compiler} {nodes : List ASTNode} {ruleId : String} {plan : ExecutionPlan}

theorem callsTargets_iff {pre post : List ASTNode} {node : ASTNode}
    (h : self.compile (pre ++ node :: post) ruleId = .ok plan) :
    CallsTargets plan (codeLen pre) node ↔ FitsTable plan.services.entries node := by
  cases node with
  | emit targets =>
    obtain ⟨target, rest, rfl, known, found⟩ :=
      compile_fanOut_at h (fun _ => rfl) (fun _ _ => nofun) (fun _ _ => nofun)
    have iff := fun body => (execEmit_reads body (.emit (UInt8.ofNat (target :: rest).length)
      (UInt16.ofNat (plan.services.entries.idxOf target))) plan).callsServices_iff
        eq_equivalence (fun _ _ same => .of_eq same) target rest
        (by simp [Instruction.emit]) (by simp [Instruction.emit]) known
    simp only [CallsTargets, found, Option.some.injEq, exists_eq_left']
    constructor
    · exact fun calls => (iff []).mp (calls.2 [])
    · exact fun fits => ⟨rfl, fun body => (iff body).mpr fits⟩
  | parallel targets =>
    obtain ⟨target, rest, rfl, known, found⟩ :=
      compile_fanOut_at h (fun _ => rfl) (fun _ _ => nofun) (fun _ _ => nofun)
    have iff := fun host scheduler body => (execParallel_reads host scheduler body
      (.parallel (UInt8.ofNat (target :: rest).length)
        (UInt16.ofNat (plan.services.entries.idxOf target))) plan).callsServices_iff
        (List.Perm.eqv _) (fun _ _ same => same) target rest (by simp [Instruction.parallel])
        (by simp [Instruction.parallel]) known
    simp only [CallsTargets, found, Option.some.injEq, exists_eq_left']
    constructor
    · exact fun calls => (iff .mute .inOrder []).mp (calls.2 .mute .inOrder [])
    · exact fun fits => ⟨rfl, fun host scheduler body => (iff host scheduler body).mpr fits⟩
  | _ => rfl

/-- The fan-outs of a list call their targets if and only if the targets of each are consecutive among the services of
the list. -/
theorem compile_fanOuts_iff (h : self.compile nodes ruleId = .ok plan) :
    FanOutsCall nodes plan ↔ FanOutsFit (self.serviceNames nodes) nodes := by
  rw [← compile_services h]
  constructor
  · intro calls node inside
    obtain ⟨pre, post, rfl⟩ := append_of_mem inside
    exact (callsTargets_iff h).mp (calls pre node post rfl)
  · rintro fits pre node post rfl
    exact (callsTargets_iff h).mpr (fits node (by simp))

/-- Targets that no node has named before, and a service of an earlier fan-out. -/
theorem compile_fanOuts_fresh : ∃ plan, ascii.compile [.emit ["a", "b"], .parallel ["b", "c"]] "r" = .ok plan ∧
      FanOutsCall [.emit ["a", "b"], .parallel ["b", "c"]] plan := by
  obtain ⟨plan, compiled⟩ : ∃ plan, ascii.compile [.emit ["a", "b"], .parallel ["b", "c"]] "r" = .ok plan := ⟨_, rfl⟩
  refine ⟨plan, compiled, (compile_fanOuts_iff compiled).mpr ?_⟩
  have names : ascii.serviceNames [.emit ["a", "b"], .parallel ["b", "c"]] = ["a", "b", "c"] := rfl
  intro node inside
  simp only [mem_cons, not_mem_nil, or_false] at inside
  rcases inside with rfl | rfl
  · exact ⟨0, ⟨rfl, by decide, by decide, by decide⟩, rfl⟩
  · exact ⟨1, ⟨rfl, by decide, by decide, by decide⟩, .of_eq rfl⟩

/-- Targets in another order than that of first use run past the table; targets that are not neighbours there are taken
for others. -/
theorem compile_fanOuts_apart : (∃ plan, ascii.compile [.next "b", .emit ["a", "b"]] "r" = .ok plan ∧
      ¬ FanOutsCall [.next "b", .emit ["a", "b"]] plan ∧
      ∃ instr, plan.instructions[1]? = some instr ∧ (execEmit (fun _ _ => .ok []) [] instr plan []).1 = .error .panic) ∧
    (∃ plan, ascii.compile [.next "a", .next "b", .next "c", .parallel ["a", "c"]] "r" = .ok plan ∧
      ¬ FanOutsCall [.next "a", .next "b", .next "c", .parallel ["a", "c"]] plan ∧
      ∃ instr, plan.instructions[3]? = some instr ∧ callNames plan.services
          (execParallel .mute .inOrder (fun _ _ => .ok []) [] instr plan []).2 = [some "a", some "b"]) := by
  constructor
  · refine ⟨_, rfl, fun calls => ?_, _, rfl, rfl⟩
    obtain ⟨instr, here, -, safe⟩ := calls [.next "b"] (.emit ["a", "b"]) [] rfl
    cases here
    exact (safe [] (fun _ _ => .ok []) []).1 rfl
  · refine ⟨_, rfl, fun calls => ?_, _, rfl, rfl⟩
    obtain ⟨instr, here, -, named⟩ :=
      calls [.next "a", .next "b", .next "c"] (.parallel ["a", "c"]) [] rfl
    cases here
    obtain ⟨made, grown, perm⟩ :=
      (named .mute .inOrder [] (fun _ _ => .ok []) []).2 fun _ _ => ⟨[], rfl⟩
    cases grown
    exact absurd perm (by decide)

end Compiler

end FlowRulZ
