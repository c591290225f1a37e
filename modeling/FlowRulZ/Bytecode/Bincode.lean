import FlowRulZ.Bytecode.Plan
import FlowRulZ.Lib.PrefixCode

/-! # Plans as bytes

Of `bincode::serialize` only this is assumed: it writes the entries of a hash map in the order in
which the map is iterated, and what it has written can be told apart.  A format that does so writes
the fields of a plan one after the other: numbers in little-endian bytes, lengths in eight bytes,
the number of a variant in four.
-/

namespace FlowRulZ.Bincode

open List

def le : Nat → Nat → Bytes
  | 0, _ => []
  | width + 1, n => UInt8.ofNat n :: le width (n / 256)

def u16 (n : UInt16) : Bytes := le 2 n.toNat

def u32 (n : UInt32) : Bytes := le 4 n.toNat

def u64 (n : UInt64) : Bytes := le 8 n.toNat

def size (n : Nat) : Bytes := le 8 n

/-- The number of a variant, which is a `u32`; variants are numbered as they are declared. -/
def variant (n : Nat) : Bytes := le 4 n

def utf8 (s : String) : Bytes := s.toByteArray.data.toList

def str (s : String) : Bytes := size (utf8 s).length ++ utf8 s

def seq {α : Type} (write : α → Bytes) (items : List α) : Bytes := size items.length ++ items.flatMap write

def option {α : Type} (write : α → Bytes) : Option α → Bytes
  | none => [0]
  | some a => 1 :: write a

def bool (b : Bool) : Bytes := [if b then 1 else 0]

def instruction (i : Instruction) : Bytes := variant i.op.ctorIdx ++ [i.flags] ++ u16 i.a ++ u16 i.b ++ u16 i.c

def indexEntry (entry : String × UInt16) : Bytes := str entry.1 ++ u16 entry.2

def index (iterated : List (String × UInt16)) : Bytes := seq indexEntry iterated

def constPool (pool : ConstantPool) (iterated : List (String × UInt16)) : Bytes :=
  seq str pool.entries ++ index iterated

def serviceEntry (entry : ServiceEntry) : Bytes := u16 entry.id ++ str entry.name

def services (table : ServiceTable) (iterated : List (String × UInt16)) : Bytes :=
  seq serviceEntry table.rows ++ index iterated

def dagNode (node : DAGNode) : Bytes := u16 node.serviceId ++ [node.layer] ++ seq u16 node.parentIds

/-- The last field is `distributed`, which the compiler never sets. -/
def dagTable (table : DAGTable) : Bytes :=
  seq dagNode table.nodes ++ seq (seq u16) table.layers ++ seq u16 table.terminalNodes ++
    variant table.failurePolicy.ctorIdx ++ seq u32 table.nodeTimeouts ++ variant table.mergeStrategy.ctorIdx ++
    bool false

def retryConfig (config : RetryConfig) : Bytes :=
  [config.maxAttempts] ++ variant config.strategy.ctorIdx ++ u32 config.fixedMs

def chunkConfig (config : ChunkConfig) : Bytes := [config.count] ++ variant config.mode.ctorIdx

def resolvedType (type : ResolvedType) : Bytes :=
  variant type.ctorIdx ++
    match type with
    | .enum variants => seq str variants
    | _ => []

def fieldSchema (field : FieldSchema) : Bytes := str field.name ++ resolvedType field.type ++ bool field.required

def schema (s : Schema) : Bytes := seq fieldSchema s.fields

/-- The bytes of a plan whose indices are iterated in these orders. -/
def serialize (plan : ExecutionPlan) (constants serviceNames : List (String × UInt16)) : Bytes :=
  str plan.ruleId ++ u64 plan.version ++ u32 plan.instrCount ++ u32 plan.complexityScore ++
    seq instruction plan.instructions ++ constPool plan.constPool constants ++
    services plan.services serviceNames ++ seq dagTable plan.dagTables ++ seq retryConfig plan.retryConfigs ++
    seq chunkConfig plan.chunkConfigs ++ option schema plan.schema

def pairs (table : Interner String) : List (String × UInt16) :=
  table.entries.zipIdx.map fun (s, i) => (s, UInt16.ofNat i)

def Iterates (iterated : List (String × UInt16)) (table : Interner String) : Prop := iterated.Perm (pairs table)

/-- `bincode::serialize` of a plan, by the orders in which the indices of its constants and services are iterated. -/
abbrev Serializer := ExecutionPlan → List (String × UInt16) → List (String × UInt16) → Bytes

theorem pairs_keys (table : Interner String) : (pairs table).map Prod.fst = table.entries := by
  simp [pairs, map_map, Function.comp_def]

theorem perm_of_short {α : Type} {items items' : List α} (short : items.length ≤ 1) (perm : items'.Perm items) :
    items' = items := by
  match items, short with
  | [], _ => exact perm.eq_nil
  | [_], _ => exact perm.eq_singleton

variable {table : Interner String}

theorem Iterates.eq_pairs {iterated : List (String × UInt16)}
    (iterates : Iterates iterated table) (short : table.entries.length ≤ 1) : iterated = pairs table := by
  apply perm_of_short _ iterates
  rw [← pairs_keys, length_map] at short
  exact short

theorem short_of_reverse {α : Type} {items : List α} (nodup : items.Nodup) (same : items.reverse = items) :
    items.length ≤ 1 := by
  by_contra long
  have first : 0 < items.length := by omega
  have ends : items[items.length - 1 - 0] = items[0] := by
    rw [← getElem_reverse (by simpa using first)]
    simp only [same]
  have := (nodup.getElem_inj_iff).mp ends
  omega

theorem short_of_pairs (same : (pairs table).reverse = pairs table) : table.entries.length ≤ 1 := by
  apply short_of_reverse table.nodup
  rw [← pairs_keys, ← map_reverse, same]

@[simp]
theorem length_le (width n : Nat) : (le width n).length = width := by
  induction width generalizing n with
  | zero => rfl
  | succ width ih => simp [le, ih]

theorem le_injective {width n m : Nat} (small : n < 256 ^ width) (small' : m < 256 ^ width)
    (same : le width n = le width m) : n = m := by
  induction width generalizing n m with
  | zero => omega
  | succ width ih =>
    obtain ⟨low, high⟩ := List.cons.inj same
    have quotients := ih (Nat.div_lt_of_lt_mul (by omega)) (Nat.div_lt_of_lt_mul (by omega)) high
    have remainders : n % 256 = m % 256 := by simpa using congrArg UInt8.toNat low
    omega

theorem prefixCode_size : PrefixCode (· < 2 ^ 64) size :=
  .of_length 8 (length_le 8) fun _ _ small small' => le_injective small small'

theorem utf8_injective (s s' : String) (same : utf8 s = utf8 s') : s = s' := by
  have bytes : s.toByteArray = s'.toByteArray := ByteArray.ext (Array.toList_inj.mp same)
  exact String.toByteArray_inj.mp bytes

theorem prefixCode_str : PrefixCode (fun s => (utf8 s).length < 2 ^ 64) str := prefixCode_size.sized utf8_injective

theorem prefixCode_u16 : PrefixCode (fun _ => True) u16 :=
  .of_length 2 (fun _ => length_le 2 _) fun n m _ _ same =>
    UInt16.toNat_inj.mp (le_injective n.toNat_lt m.toNat_lt same)

/-- Its strings are as long as strings can be. -/
def Fits (table : Interner String) : Prop := ∀ s ∈ table.entries, (utf8 s).length < 2 ^ 64

instance : DecidablePred Fits := fun table =>
  inferInstanceAs (Decidable (∀ s ∈ table.entries, (utf8 s).length < 2 ^ 64))

theorem Iterates.fits {iterated : List (String × UInt16)} (iterates : Iterates iterated table)
    (fits : Fits table) : ∀ entry ∈ iterated, (utf8 entry.1).length < 2 ^ 64 ∧ True := by
  intro entry listed
  have key : entry.1 ∈ table.entries := by
    rw [← pairs_keys]
    exact mem_map_of_mem (iterates.mem_iff.mp listed)
  exact ⟨fits _ key, trivial⟩

theorem index_inj {iterated iterated' : List (String × UInt16)}
    (iterates : Iterates iterated table) (iterates' : Iterates iterated' table) (fits : Fits table) {rest rest' : Bytes}
    (same : index iterated ++ rest = index iterated' ++ rest') : iterated = iterated' ∧ rest = rest' := by
  have length : iterated.length = iterated'.length := iterates.length_eq.trans iterates'.length_eq.symm
  simp only [index, seq, length, append_assoc, append_cancel_left_eq] at same
  exact (prefixCode_str.both prefixCode_u16).flatMap length (iterates.fits fits) (iterates'.fits fits) same

/-- The bytes of a plan show the orders in which its indices were iterated. -/
def Serializer.ShowsOrders (serializer : Serializer) : Prop :=
  ∀ {plan : ExecutionPlan} {constants constants' names names' : List (String × UInt16)},
    Iterates constants plan.constPool → Iterates constants' plan.constPool →
    Iterates names plan.services → Iterates names' plan.services → Fits plan.constPool → Fits plan.services →
    serializer plan constants names = serializer plan constants' names' → constants = constants' ∧ names = names'

theorem serialize_showsOrders : Serializer.ShowsOrders serialize := by
  intro plan constants constants' names names' iterates iterates' names_iterates names_iterates' fits names_fit same
  simp only [serialize, constPool, services, append_assoc, append_cancel_left_eq] at same
  obtain ⟨first, later⟩ := index_inj iterates iterates' fits same
  rw [append_cancel_left_eq] at later
  exact ⟨first, (index_inj names_iterates names_iterates' names_fit later).1⟩

end FlowRulZ.Bincode
