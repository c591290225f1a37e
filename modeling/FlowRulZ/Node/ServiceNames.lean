import FlowRulZ.Dsl.ServiceIds
import FlowRulZ.Ffi.Services
import FlowRulZ.Node.Production

/-! # The names that a node knows

`executePlan` looks up the names of services in what `bridge.PlanServices` returns, and makes
up a name if that fails.  The entries of a plan are all there or not at all: they are if
the text of the service table fits the buffer.
-/

namespace FlowRulZ.Node

open List Compiler StepOutput

def Entered (wire : Wire) (bytes : Bytes) (id : UInt16) (name : String) : Prop :=
  ∃ entries, planServices wire bytes = .ok entries ∧ ⟨id, name⟩ ∈ entries

/-- There is an entry for every id that the instructions of a plan use, with the name that the rule gives at that place;
for the rows of a fan-out, with a name of the rule. -/
structure ServicesKnown (c : Compiler) (nodes : List ASTNode) (plan : ExecutionPlan) (wire : Wire)
    (bytes : Bytes) : Prop where
  instructions : List.Forall₂ (Entered wire bytes) (plan.instructions.flatMap Instruction.serviceIds)
    (nodes.flatMap ASTNode.targets)
  dags : List.Forall₂ (Entered wire bytes) plan.dagIds (nodes.flatMap c.dagNames)
  rows : ∀ row ∈ plan.instructions.flatMap Instruction.rows,
    ∃ name ∈ c.serviceNames nodes, Entered wire bytes (UInt16.ofNat row) name

def TableFits (plan : ExecutionPlan) : Prop := (tableJson plan.services.rows).length ≤ planBufferSize

def RowsInside (names : List String) (nodes : List ASTNode) : Prop :=
  ∀ row ∈ nodes.flatMap (ASTNode.rows names), row < names.length

/-- No step, from whatever context, waits for a service without a name. -/
def NeverFallsBack (node : ProdNode) (bytes : Bytes) : Prop :=
  ∀ ctxBytes resp out, executeStep node.wire node.host node.scheduler none bytes ctxBytes resp = .ok out →
    out.result = 1 → planNames node bytes out.pendingSvc ≠ none

section

variable {plan : ExecutionPlan}

theorem TableFits.length_le (fits : TableFits plan) : plan.services.entries.length ≤ 4096 := by
  have rows := length_le_tableJson plan.services.rows
  have same : plan.services.rows.length = plan.services.entries.length := by simp [ServiceTable.rows]
  unfold TableFits planBufferSize at fits
  omega

theorem mem_rows {id : UInt16} {name : String} : ⟨id, name⟩ ∈ plan.services.rows ↔
      ∃ i, plan.services.entries[i]? = some name ∧ id = UInt16.ofNat i := by
  rw [mem_iff_getElem?]
  simp only [ServiceTable.rows_getElem?, Option.map_eq_some_iff, ServiceEntry.mk.injEq]
  constructor
  · rintro ⟨i, name, there, rfl, rfl⟩
    exact ⟨i, there, rfl⟩
  · rintro ⟨i, there, rfl⟩
    exact ⟨i, name, there, rfl, rfl⟩

theorem mem_rows_idIn {name : String} (listed : name ∈ plan.services.entries) :
    ⟨idIn plan.services.entries name, name⟩ ∈ plan.services.rows :=
  mem_rows.mpr ⟨_, getElem?_idxOf listed, rfl⟩

end

section

variable {c : Compiler} {nodes : List ASTNode} {ruleId : String} {plan : ExecutionPlan} {wire : Wire}
  {bytes : Bytes} (compiled : c.compile nodes ruleId = .ok plan)

include compiled

theorem mem_entries {name : String} :
    name ∈ plan.services.entries ↔ name ∈ nodes.flatMap ASTNode.targets ∨ name ∈ nodes.flatMap c.dagNames := by
  rw [compile_services compiled, serviceNames, Interner.mem_firstUses]
  simp only [not_mem_nil, false_or, mem_flatMap, namedBy_eq, mem_append]
  constructor
  · rintro ⟨node, there, target | name⟩
    · exact .inl ⟨node, there, target⟩
    · exact .inr ⟨node, there, name⟩
  · rintro (⟨node, there, target⟩ | ⟨node, there, name⟩)
    · exact ⟨node, there, .inl target⟩
    · exact ⟨node, there, .inr name⟩

theorem row_lt {row : Nat} (listed : row ∈ nodes.flatMap (ASTNode.rows plan.services.entries)) :
    row < plan.services.entries.length + 256 := by
  obtain ⟨node, there, row_⟩ := mem_flatMap.mp listed
  have fanOut (targets : List String) (named : ∀ name ∈ targets, name ∈ plan.services.entries)
      (inside : row ∈ List.range' (idIn plan.services.entries (targets.headD "")).toNat (targets.length % 2 ^ 8)) :
      row < plan.services.entries.length + 256 := by
    cases targets with
    | nil => simp at inside
    | cons first rest =>
      have place := idxOf_lt_length_of_mem (named first mem_cons_self)
      have cut : (idIn plan.services.entries first).toNat ≤ plan.services.entries.idxOf first := by
        exact Nat.mod_le _ _
      have range := mem_range'_1.mp inside
      rw [headD_cons] at range
      omega
  cases node with
  | parallel targets | emit targets =>
    refine fanOut targets (fun name named => ?_) row_
    exact (mem_entries compiled).mpr (.inl (mem_flatMap.mpr ⟨_, there, named⟩))
  | _ => cases row_

/-- The ids that steps wait for are in the table, if the counts of emits are. -/
theorem awaited_lt (emits : ∀ targets, .emit targets ∈ nodes → targets.length % 2 ^ 8 < (c.serviceNames nodes).length)
    {id : UInt16} (awaited : id ∈ plan.instructions.flatMap Instruction.awaited) :
    id.toNat < plan.services.entries.length := by
  rw [compile_awaited compiled] at awaited
  obtain ⟨node, there, own⟩ := mem_flatMap.mp awaited
  cases node with
  | next target | async target =>
    rw [mem_singleton.mp own, idIn]
    have listed : target ∈ plan.services.entries :=
      (mem_entries compiled).mpr (.inl (mem_flatMap.mpr ⟨_, there, mem_singleton_self target⟩))
    exact lt_of_le_of_lt (Nat.mod_le _ _) (idxOf_lt_length_of_mem listed)
  | emit targets =>
    rw [mem_singleton.mp own, compile_services compiled]
    simpa using emits targets there
  | _ => cases own

variable (stored : wire.readPlan bytes = some plan) (json : wire.AsJson plan.services.rows)

include stored json

/-- The services of a plan are known if and only if its table fits the buffer and its fan-outs stay in the table. -/
theorem servicesKnown_iff :
    ServicesKnown c nodes plan wire bytes ↔ TableFits plan ∧ RowsInside (c.serviceNames nodes) nodes := by
  have entered {id : UInt16} {name : String} :
      Entered wire bytes id name ↔ TableFits plan ∧ ⟨id, name⟩ ∈ plan.services.rows := by
    rw [Entered, planServices_eq stored (compile_version compiled) json, TableFits]
    split_ifs with fits <;> simp [fits]
  have names := compile_services compiled
  constructor
  · rintro ⟨instructions, dags, rows⟩
    rw [compile_serviceIds compiled, List.forall₂_map_left_iff, List.forall₂_same] at instructions
    rw [compile_dagIds compiled, List.forall₂_map_left_iff, List.forall₂_same] at dags
    have fits : TableFits plan := by
      by_contra large
      have none : plan.services.entries = [] := by
        refine eq_nil_iff_forall_not_mem.mpr fun name listed => ?_
        rcases (mem_entries compiled).mp listed with target | node
        · exact large (entered.mp (instructions name target)).1
        · exact large (entered.mp (dags name node)).1
      refine large ?_
      rw [TableFits, ServiceTable.rows, none]
      decide
    refine ⟨fits, fun row listed => ?_⟩
    rw [← names] at listed ⊢
    have near := row_lt compiled listed
    rw [← compile_rows compiled] at listed
    obtain ⟨name, -, found⟩ := rows row listed
    obtain ⟨i, there, same⟩ := mem_rows.mp (entered.mp found).2
    have small := fits.length_le
    have inside := Table.lt_length there
    have equal := congrArg UInt16.toNat same
    rw [UInt16.toNat_ofNat', UInt16.toNat_ofNat'] at equal
    omega
  · rintro ⟨fits, inside⟩
    constructor
    · rw [compile_serviceIds compiled, List.forall₂_map_left_iff, List.forall₂_same]
      intro name target
      exact entered.mpr ⟨fits, mem_rows_idIn ((mem_entries compiled).mpr (.inl target))⟩
    · rw [compile_dagIds compiled, List.forall₂_map_left_iff, List.forall₂_same]
      intro name node
      exact entered.mpr ⟨fits, mem_rows_idIn ((mem_entries compiled).mpr (.inr node))⟩
    · rw [compile_rows compiled]
      intro row listed
      rw [← names] at inside
      have there := getElem?_eq_getElem (inside row listed)
      refine ⟨_, ?_, entered.mpr ⟨fits, mem_rows.mpr ⟨row, there, rfl⟩⟩⟩
      rw [← names]
      exact getElem_mem _

end

theorem step_awaited {rt : Runtime} {resp : Option Bytes} {vm vm' : VM} {id : UInt16} {body : Bytes}
    {ms : UInt64} (stepped : VM.step rt resp vm = (vm', .ok (.pending id body ms))) :
    id ∈ rt.plan.instructions.flatMap Instruction.awaited := by
  simp only [VM.step] at stepped
  cases here : rt.plan.instructions[(vm.respond resp).ctx.ip]? with
  | none =>
    rw [here] at stepped
    cases stepped
  | some instr =>
    refine mem_flatMap.mpr ⟨instr, mem_of_getElem? here, ?_⟩
    simp only [here] at stepped
    cases op : instr.op <;> simp only [op] at stepped
    case next | async | emit | svcCall =>
      cases stepped
      simp [Instruction.awaited, op]
    case delay => cases stepped
    all_goals
      split at stepped
      · cases stepped
      · split_ifs at stepped <;> cases stepped

theorem ofStep_pending {wire : Wire} {stepped : VM × Except (Fault String) VM.StepResult}
    (pending : (ofStep wire stepped).result = 1) :
    ∃ vm body ms, stepped = (vm, .ok (.pending (ofStep wire stepped).pendingSvc body ms)) := by
  obtain ⟨vm, e | result⟩ := stepped
  · cases e <;> cases pending
  · cases result with
    | pending id body ms =>
      have kept : (ofStep wire (vm, .ok (.pending id body ms))).pendingSvc = id := by
        simp only [ofStep, ofResult, withCtx]
        split_ifs <;> rfl
      exact ⟨vm, body, ms, by rw [kept]⟩
    | done =>
      simp only [ofStep, ofResult, withCtx] at pending
      split_ifs at pending <;> cases pending
    | «continue» | delay ms =>
      simp only [ofStep, ofResult, withCtx] at pending
      split_ifs at pending <;> cases pending

theorem executeStep_awaited {wire : Wire} {host : Host} {scheduler : Scheduler} {plan : ExecutionPlan}
    {bytes ctxBytes : Bytes} {resp : Option Bytes} {out : StepOutput}
    (stored : wire.readPlan bytes = some plan)
    (stepped : executeStep wire host scheduler none bytes ctxBytes resp = .ok out) (pending : out.result = 1) :
    out.pendingSvc ∈ plan.instructions.flatMap Instruction.awaited := by
  unfold executeStep at stepped
  split_ifs at stepped
  cases stepped
  unfold flowrulzExecuteStep at pending ⊢
  rw [stored] at pending ⊢
  dsimp only at pending ⊢
  by_cases version : plan.version = bytecodeVersion
  · rw [if_neg (not_not.mpr version)] at pending ⊢
    cases context : wire.context ctxBytes with
    | none =>
      rw [context] at pending
      cases pending
    | some ctx =>
      rw [context] at pending
      obtain ⟨vm, body, ms, asked⟩ := ofStep_pending pending
      exact step_awaited asked
  · rw [if_pos version] at pending
    cases pending

section

variable {c : Compiler} {nodes : List ASTNode} {ruleId : String} {plan : ExecutionPlan} {node : ProdNode}
  {bytes : Bytes} (compiled : c.compile nodes ruleId = .ok plan)
  (stored : node.wire.readPlan bytes = some plan) (json : node.wire.AsJson plan.services.rows)

include compiled stored json

theorem planNames_of_large (large : ¬TableFits plan) : planNames node bytes = fun _ => none := by
  have cut : ¬(tableJson plan.services.rows).length ≤ planBufferSize := large
  rw [planNames, planServices_eq stored (compile_version compiled) json, if_neg cut]

/-- If the table fits, every id below its length has a name. -/
theorem planNames_of_lt (fits : TableFits plan) {id : UInt16} (inside : id.toNat < plan.services.entries.length) :
    planNames node bytes id ≠ none := by
  have small : (node.wire.servicesJson plan.services.rows).length ≤ planBufferSize := by
    rw [json.written]
    exact fits
  rw [planNames_eq stored (compile_version compiled) small, nameMap, ne_eq, Option.map_eq_none_iff, find?_eq_none]
  intro missing
  have there := getElem?_eq_getElem inside
  have row : (⟨id, plan.services.entries[id.toNat]⟩ : ServiceEntry) ∈ plan.services.rows :=
    mem_rows.mpr ⟨id.toNat, there, (UInt16.ofNat_toNat).symm⟩
  exact missing _ (mem_reverse.mpr row) (decide_eq_true rfl)

end

/-- Every service of a plan is known if and only if the text of its table fits the buffer and its fan-outs stay in the
table. If the text fits and the count of no emit is beyond the table, no service is called by a name that is made up. -/
theorem services_known_iff {c : Compiler} {nodes : List ASTNode} {ruleId : String} {plan : ExecutionPlan}
    {node : ProdNode} {bytes : Bytes} (compiled : c.compile nodes ruleId = .ok plan)
    (stored : node.wire.readPlan bytes = some plan) (json : node.wire.AsJson plan.services.rows) :
    (ServicesKnown c nodes plan node.wire bytes ↔ TableFits plan ∧ RowsInside (c.serviceNames nodes) nodes) ∧
      (TableFits plan → (∀ targets, .emit targets ∈ nodes → targets.length % 2 ^ 8 < (c.serviceNames nodes).length) →
          NeverFallsBack node bytes) := by
  refine ⟨servicesKnown_iff compiled stored json, fun fits emits ctxBytes resp out stepped pending => ?_⟩
  have awaited := executeStep_awaited stored stepped pending
  exact planNames_of_lt compiled stored json fits (awaited_lt compiled emits awaited)

/-- The wire of a plan whose rows are written as JSON. Other rows stand behind a zero. -/
def jsonWireOf (plan : ExecutionPlan) : Wire :=
  { wireOf plan with
    servicesJson := fun rows =>
      if rows = plan.services.rows then tableJson rows else 0 :: servicesFormat.write rows
    readServices
      | 0 :: bytes => servicesFormat.readAll bytes
      | bytes => if bytes = tableJson plan.services.rows then some plan.services.rows else none
    readServices_servicesJson := by
      intro rows
      split_ifs with own
      · subst own
        exact if_pos rfl
      · exact servicesFormat.readAll_write rows }

theorem jsonWireOf_asJson (plan : ExecutionPlan) : (jsonWireOf plan).AsJson plan.services.rows where
  written := if_pos rfl
  cut n short := by
    cases n with
    | zero => rfl
    | succ n =>
      refine if_neg fun (same : (tableJson plan.services.rows).take (n + 1) = _) => ?_
      have length := congrArg List.length same
      rw [length_take] at length
      omega

def reading (nodes : List ASTNode) : ProdNode :=
  { counting nodes with wire := jsonWireOf (Compiler.ascii.planOf nodes "r") }

theorem services_known_call : ServicesKnown .ascii [.next "a", .parallel ["b", "c"]]
        (Compiler.ascii.planOf [.next "a", .parallel ["b", "c"]] "r")
        (reading [.next "a", .parallel ["b", "c"]]).wire [0] ∧
      NeverFallsBack (reading [.next "a", .parallel ["b", "c"]]) [0] := by
  have compiled : ascii.compile [.next "a", .parallel ["b", "c"]] "r" =
      .ok (ascii.planOf [.next "a", .parallel ["b", "c"]] "r") := rfl
  have fits : TableFits (ascii.planOf [.next "a", .parallel ["b", "c"]] "r") := by
    unfold TableFits
    decide +kernel
  have stored : (reading [.next "a", .parallel ["b", "c"]]).wire.readPlan [0] =
    some (ascii.planOf [.next "a", .parallel ["b", "c"]] "r") := rfl
  have known := services_known_iff compiled stored (jsonWireOf_asJson _)
  refine ⟨known.1.mpr ⟨fits, ?_⟩, known.2 fits ?_⟩
  · unfold RowsInside
    decide +kernel
  · intro targets there
    simp at there

def longName (n : Nat) : String := String.ofList (List.replicate n 'a')

theorem longName_length (n : Nat) : n ≤ (Utf8.encode (longName n)).length := by
  have length := Utf8.length_le_encode (List.replicate n 'a')
  rw [length_replicate] at length
  rwa [Utf8.encode, longName, String.toList_ofList]

theorem longName_unfit (n : Nat) (long : planBufferSize ≤ n) : ¬TableFits (ascii.planOf [.next (longName n)] "r") := by
  have rows : (ascii.planOf [.next (longName n)] "r").services.rows = [⟨0, longName n⟩] := rfl
  have escaped := length_le_escaped (Utf8.encode (longName n))
  have name := longName_length n
  rw [TableFits, rows, tableJson, flatMap_singleton, drop_one, tail_cons]
  simp only [entryJson, length_append, length_cons]
  omega

/-- A long name does not get over to the node, which calls a service of another name. -/
theorem long_name_lost : Compiler.ascii.compile [.next (longName 4096)] "r" =
        .ok (Compiler.ascii.planOf [.next (longName 4096)] "r") ∧
      ¬ServicesKnown .ascii [.next (longName 4096)] (Compiler.ascii.planOf [.next (longName 4096)] "r")
        (reading [.next (longName 4096)]).wire [0] ∧
      serviceCalls (executePlan (reading [.next (longName 4096)]) [0] []).2 = [⟨"svc-0", "", [], 0⟩] := by
  have compiled : ascii.compile [.next (longName 4096)] "r" = .ok (ascii.planOf [.next (longName 4096)] "r") := rfl
  refine ⟨compiled, fun known => ?_, ?_⟩
  · exact longName_unfit 4096 (Nat.le_refl _) ((servicesKnown_iff compiled rfl (jsonWireOf_asJson _)).mp known).1
  · have stored : (reading [.next (longName 4096)]).wire.readPlan [0] =
      some (ascii.planOf [.next (longName 4096)] "r") := rfl
    rw [executePlan, planNames_of_large compiled stored (jsonWireOf_asJson _) (longName_unfit 4096 (Nat.le_refl _))]
    rfl

end FlowRulZ.Node
