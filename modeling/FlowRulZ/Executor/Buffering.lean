import FlowRulZ.Executor.DagResults
import FlowRulZ.Executor.Runtime

/-! # Buffered messages

The first message of a batch is kept as it is, and every later one is added to what is read from the
buffer.  So a first message that is an array counts as a batch, and a batch of one is no array.
-/

namespace FlowRulZ

open List

structure Message (host : Host) where
  body : Bytes
  value : Json
  read : host.fromSlice body = .ok value

theorem Message.valueOrNull {host : Host} (message : Message host) : host.valueOrNull message.body = message.value := by
  rw [Host.valueOrNull, message.read]

def batch (first : Json) (rest : List Json) : Json :=
  match rest, first with
  | [], _ => first
  | _, .arr items => .arr (items ++ rest)
  | _, _ => .arr (first :: rest)

theorem ne_singleton (value : Json) : value ≠ .arr [value] := by
  intro same
  have larger := congrArg sizeOf same
  simp at larger
  omega

theorem batch_eq_iff {first : Json} {rest : List Json} (some : rest ≠ []) :
    batch first rest = .arr (first :: rest) ↔ ∀ items, first ≠ .arr items := by
  obtain ⟨second, rest, rfl⟩ := exists_cons_of_ne_nil some
  cases first with
  | arr items =>
    simp only [batch, Json.arr.injEq, ne_eq, forall_eq', iff_false]
    intro same
    have one : items = [.arr items] :=
      append_cancel_right (show items ++ (second :: rest) = [.arr items] ++ (second :: rest) from same)
    exact ne_singleton (.arr items) (congrArg Json.arr one)
  | _ => simp [batch]

def Host.ReadsBatches (host : Host) (first : Json) (rest : List Json) : Prop :=
  ∀ k, 0 < k → k ≤ rest.length →
    host.fromSlice (host.toVec (batch first (rest.take k))) = .ok (batch first (rest.take k))

namespace ExecutionRuntime

/-- Messages pushed one after the other: what the pushes return, and the runtime at the end. -/
def pushAll (self : ExecutionRuntime) : List Bytes → List Bool × ExecutionRuntime
  | [] => ([], self)
  | body :: bodies =>
    let pushed := self.bufferPush body
    let more := pushed.2.pushAll bodies
    (pushed.1 :: more.1, more.2)

/-- `execute` takes the first message, the pushes after it return true at the last message and not before, and the flush
returns the array of all messages. -/
def Collects (self : ExecutionRuntime) (first : Message self.machine.host) (rest : List (Message self.machine.host)) :
    Prop :=
  ∃ after, self.Executes first.body (.ok first.body) after ∧ (rest = [] → after.bufferRemaining = 0) ∧
    (after.pushAll (rest.map (·.body))).1 = (List.range rest.length).map (fun i => decide (i + 1 = rest.length)) ∧
    self.machine.host.fromSlice (after.pushAll (rest.map (·.body))).2.bufferFlush.1 =
      .ok (.arr (first.value :: rest.map (·.value)))

section

variable {self : ExecutionRuntime} {instr : Instruction}

theorem executes_buffer (starts : self.machine.plan.instructions.head? = some instr) (buffers : instr.op = .buffer)
    {body : Bytes} {result : Except (Fault String) Bytes} {after : ExecutionRuntime} :
    self.Executes body result after ↔ result = .ok body ∧ after = self.bufferFirst instr body := by
  constructor
  · intro executed
    cases executed with
    | buffer found _ =>
      obtain rfl := Option.some.inj (starts.symm.trans found)
      exact ⟨rfl, rfl⟩
    | chunk found chunks _ =>
      obtain rfl := Option.some.inj (starts.symm.trans found)
      rw [buffers] at chunks
      cases chunks
    | run other _ => exact absurd buffers (other instr starts).1
  · rintro ⟨rfl, rfl⟩
    exact .buffer starts buffers

theorem pushAll_flags (set : self.bufferTarget ≠ 0) (bodies : List Bytes) : (self.pushAll bodies).1 =
    (List.range bodies.length).map fun i => decide (self.bufferTarget ≤ self.bufferCount + 1 + UInt8.ofNat i) := by
  induction bodies generalizing self with
  | nil => rfl
  | cons body bodies ih =>
    have later := @ih (self.bufferPush body).2 (by rw [bufferPush, if_neg set]; exact set)
    rw [pushAll, later, length_cons, range_succ_eq_map, map_cons]
    rw [bufferPush, if_neg set]
    have shift : ∀ i, self.bufferCount + 1 + 1 + UInt8.ofNat i = self.bufferCount + 1 + UInt8.ofNat (i + 1) := by
      intro i
      rw [UInt8.ofNat_add, UInt8.add_comm (UInt8.ofNat i), UInt8.add_assoc (self.bufferCount + 1)]
      rfl
    simp [shift]

theorem pushAll_unset (unset : self.bufferTarget = 0) (bodies : List Bytes) :
    (self.pushAll bodies).1 = List.replicate bodies.length false := by
  induction bodies with
  | nil => rfl
  | cons body bodies ih =>
    rw [pushAll, bufferPush, if_pos unset, length_cons, replicate_succ, ih]

theorem mergeBufferJson_batch {host : Host} {first : Json} {done : List Json} {prev : Bytes}
    (holds : host.valueOrNull prev = batch first done) (body : Bytes) :
    mergeBufferJson host prev body = host.toVec (batch first (done ++ [host.valueOrNull body])) := by
  rw [mergeBufferJson, holds]
  cases done with
  | nil => cases first <;> rfl
  | cons value done => cases first <;> simp [batch]

theorem pushAll_body {host : Host} (same : self.machine.host = host) (set : self.bufferTarget ≠ 0) {first : Json}
    {done : List Json} (holds : host.valueOrNull self.bufferBody = batch first done) {rest : List (Message host)}
    (some : rest ≠ [])
    (reads : ∀ k, 0 < k → k ≤ rest.length → host.fromSlice (host.toVec (batch first (done ++ (rest.map (·.value)).take k))) =
      .ok (batch first (done ++ (rest.map (·.value)).take k))) :
    (self.pushAll (rest.map (·.body))).2.bufferBody = host.toVec (batch first (done ++ rest.map (·.value))) := by
  induction rest generalizing self done with
  | nil => exact absurd rfl some
  | cons message rest ih =>
    have pushed : (self.bufferPush message.body).2.bufferBody = host.toVec (batch first (done ++ [message.value])) := by
      rw [bufferPush, if_neg set, same]
      exact (mergeBufferJson_batch holds _).trans (by rw [message.valueOrNull])
    cases rest with
    | nil => exact pushed
    | cons next rest =>
      have read : host.fromSlice (host.toVec (batch first (done ++ [message.value]))) =
          .ok (batch first (done ++ [message.value])) := reads 1 (by omega) (by simp)
      have holds' : host.valueOrNull (self.bufferPush message.body).2.bufferBody =
          batch first (done ++ [message.value]) := by
        rw [pushed, Host.valueOrNull, read]
      refine (ih ?_ ?_ holds' (cons_ne_nil _ _) ?_).trans (by simp)
      · rw [bufferPush, if_neg set]
        exact same
      · rw [bufferPush, if_neg set]
        exact set
      · intro k positive small
        have longer := reads (k + 1) (by omega) (by simpa using small)
        simpa using longer

/-- The pushes after the first message return true at the last one and not before if and only if the size of the batch
fits the count. -/
theorem flags_bufferFirst (self : ExecutionRuntime) (first : Bytes) {bodies : List Bytes}
    (size : bodies.length + 1 = instr.a.toNat) (some : bodies ≠ []) :
    ((self.bufferFirst instr first).pushAll bodies).1 =
      (List.range bodies.length).map (fun i => decide (i + 1 = bodies.length)) ↔ instr.a.toNat ≤ 255 := by
  have target : (self.bufferFirst instr first).bufferTarget.toNat = instr.a.toNat % 256 := UInt16.toNat_toUInt8 _
  have positive : 0 < bodies.length := length_pos_of_ne_nil some
  by_cases unset : (self.bufferFirst instr first).bufferTarget = 0
  · rw [pushAll_unset unset]
    rw [unset] at target
    have zero : instr.a.toNat % 256 = 0 := target.symm
    constructor
    · intro same
      have last := congrArg (fun flags => flags[bodies.length - 1]?) same
      simp [positive, Nat.sub_add_cancel positive] at last
    · omega
  · have full : ∀ i, (self.bufferFirst instr first).bufferTarget ≤ (self.bufferFirst instr first).bufferCount + 1 + UInt8.ofNat i ↔
        instr.a.toNat % 256 ≤ (2 + i) % 256 := by
      intro i
      rw [UInt8.le_iff_toNat_le, target, UInt8.toNat_add, UInt8.toNat_ofNat']
      have two : ((self.bufferFirst instr first).bufferCount + 1).toNat = 2 := rfl
      rw [two, Nat.add_mod_mod]
    simp only [pushAll_flags unset, full]
    rw [map_inj_left]
    constructor
    · intro same
      by_contra large
      have early := same (instr.a.toNat % 256 - 2) (by rw [mem_range]; omega)
      rw [decide_eq_decide] at early
      omega
    · intro small i inside
      rw [mem_range] at inside
      rw [decide_eq_decide]
      omega

end

theorem flush_bufferFirst {self : ExecutionRuntime} {instr : Instruction} {first : Message self.machine.host}
    {rest : List (Message self.machine.host)} (some : rest ≠ []) (set : instr.a.toUInt8 ≠ 0)
    (reads : self.machine.host.ReadsBatches first.value (rest.map (·.value))) :
    self.machine.host.fromSlice ((self.bufferFirst instr first.body).pushAll (rest.map (·.body))).2.bufferFlush.1 =
      .ok (batch first.value (rest.map (·.value))) := by
  have kept : (self.bufferFirst instr first.body).machine.host = self.machine.host := rfl
  have holds : self.machine.host.valueOrNull (self.bufferFirst instr first.body).bufferBody = batch first.value [] :=
    first.valueOrNull
  have body := pushAll_body kept set holds some fun k positive small => reads k positive (by simpa using small)
  have read := reads rest.length (length_pos_of_ne_nil some) (by simp)
  rw [take_of_length_le (by simp)] at read
  exact (congrArg self.machine.host.fromSlice body).trans read

/-- A batch is collected if and only if it has two messages or more, its size fits the count, and its first message is
no array. -/
theorem collects_iff {self : ExecutionRuntime} {instr : Instruction}
    (starts : self.machine.plan.instructions.head? = some instr) (buffers : instr.op = .buffer)
    {first : Message self.machine.host} {rest : List (Message self.machine.host)}
    (size : rest.length + 1 = instr.a.toNat)
    (reads : self.machine.host.ReadsBatches first.value (rest.map (·.value))) :
    self.Collects first rest ↔ 2 ≤ instr.a.toNat ∧ instr.a.toNat ≤ 255 ∧ ∀ items, first.value ≠ .arr items := by
  have law : self.Collects first rest ↔ (rest = [] → (self.bufferFirst instr first.body).bufferRemaining = 0) ∧
      ((self.bufferFirst instr first.body).pushAll (rest.map (·.body))).1 =
        (List.range rest.length).map (fun i => decide (i + 1 = rest.length)) ∧
      self.machine.host.fromSlice ((self.bufferFirst instr first.body).pushAll (rest.map (·.body))).2.bufferFlush.1 =
        .ok (.arr (first.value :: rest.map (·.value))) := by
    simp only [Collects, executes_buffer starts buffers, true_and, exists_eq_left]
  rw [law]
  cases rest with
  | nil =>
    have one : instr.a.toNat = 1 := by simpa using size.symm
    constructor
    · rintro ⟨-, -, flushed⟩
      have same : first.value = .arr [first.value] := by
        simpa [pushAll, bufferFlush, bufferFirst, first.read] using flushed
      exact absurd same (ne_singleton first.value)
    · rintro ⟨two, -⟩
      omega
  | cons second rest =>
    have sized : ((second :: rest).map (·.body)).length + 1 = instr.a.toNat := by simpa using size
    have flags := flags_bufferFirst self first.body sized (by simp)
    rw [length_map] at flags
    rw [flags]
    have content : instr.a.toNat ≤ 255 → (self.machine.host.fromSlice
            ((self.bufferFirst instr first.body).pushAll ((second :: rest).map (·.body))).2.bufferFlush.1 =
          .ok (.arr (first.value :: (second :: rest).map (·.value))) ↔ ∀ items, first.value ≠ .arr items) := by
      intro small
      have set : instr.a.toUInt8 ≠ 0 := by
        intro unset
        have none : instr.a.toNat % 256 = 0 := (UInt16.toNat_toUInt8 _).symm.trans (congrArg UInt8.toNat unset)
        omega
      rw [flush_bufferFirst (cons_ne_nil second rest) set reads, Except.ok.injEq]
      exact batch_eq_iff (by simp)
    constructor
    · rintro ⟨-, small, flushed⟩
      exact ⟨by rw [← size, length_cons]; omega, small, (content small).mp flushed⟩
    · rintro ⟨-, small, single⟩
      exact ⟨nofun, small, (content small).mpr single⟩

def batchHost : Host := Host.reading
  [("null", .null), ("true", .bool true), ("[true]", .arr [.bool true]), ("[true,null]", .arr [.bool true, .null])]

def bufferRuntime (n : UInt8) : ExecutionRuntime where
  machine := ⟨batchHost, .inOrder, { ExecutionPlan.new "r" with instructions := [.buffer n] }, fun _ call => .ok call.body⟩

theorem collects_two :
    (bufferRuntime 2).Collects ⟨Utf8.encode "true", .bool true, rfl⟩ [⟨Utf8.encode "null", .null, rfl⟩] := by
  refine (@collects_iff _ (.buffer 2) rfl rfl _ _ rfl ?_).mpr ⟨by decide, by decide, nofun⟩
  intro k positive small
  obtain rfl : k = 1 := by
    simp at small
    omega
  rfl

/-- A batch of one is flushed as it is, and an array in front gives its items to the batch. -/
theorem collects_not :
    ((bufferRuntime 1).bufferFirst (.buffer 1) (Utf8.encode "true")).bufferFlush.1 = Utf8.encode "true" ∧
    ¬ (bufferRuntime 1).Collects ⟨Utf8.encode "true", .bool true, rfl⟩ [] ∧
    (((bufferRuntime 2).bufferFirst (.buffer 2) (Utf8.encode "[true]")).pushAll [Utf8.encode "null"]).2.bufferFlush.1 =
      Utf8.encode "[true,null]" ∧
    ¬ (bufferRuntime 2).Collects ⟨Utf8.encode "[true]", .arr [.bool true], rfl⟩ [⟨Utf8.encode "null", .null, rfl⟩] := by
  refine ⟨rfl, ?_, rfl, ?_⟩
  all_goals
    rintro ⟨after, executed, -, -, flushed⟩
    obtain ⟨-, rfl⟩ := (executes_buffer rfl rfl).mp executed
    cases flushed

end ExecutionRuntime

end FlowRulZ
