import FlowRulZ.Executor.DagResults
import FlowRulZ.Executor.Runtime

/-! # Chunked execution

The body is cut into pieces of bytes, wherever its JSON text may be.  A piece that is no JSON text by
itself comes back as `null`.
-/

namespace FlowRulZ

open List

def Json.elements : Json → List Json
  | .arr items => items
  | _ => []

def Blank (bytes : Bytes) : Prop := ∀ b ∈ bytes, isBlankByte b = true

/-- Blanks around a text change nothing, and are no text. Parts of an empty array are that array or no text. -/
structure Host.SkipsBlanks (host : Host) : Prop where
  around : ∀ {before text after : Bytes} {value : Json}, Blank before → Blank after →
    (host.fromSlice (before ++ text ++ after) = .ok value ↔ host.fromSlice text = .ok value)
  blank : ∀ {bytes : Bytes} {value : Json}, Blank bytes → host.fromSlice bytes ≠ .ok value
  empty : ∀ {bytes part : Bytes} {value : Json}, host.fromSlice bytes = .ok (.arr []) → part <:+: bytes →
    host.fromSlice part = .ok value → value = .arr []

/-- What is returned is JSON that has the items once and in order, as they are or in its chunks. -/
def Lossless (host : Host) (out : Bytes) (items : List Json) : Prop :=
  ∃ value, host.fromSlice out = .ok value ∧
    (value = .arr items ∨ ∃ chunks, value = .arr chunks ∧ chunks.flatMap Json.elements = items)

/-- A call that takes the answer of its service for the body. -/
def Instruction.TakesAnswer (instr : Instruction) : Prop :=
  instr.op = .next ∨ instr.op = .async ∧ instr.hasRetry = false

/-- A plan of a chunk instruction and calls, whose services answer what they get. -/
structure Runtime.Echoes (rt : Runtime) (count : UInt8) : Prop where
  plan : ∃ first calls, rt.plan.instructions = first :: calls ∧ first.op = .chunk ∧ first.a.toUInt8 = count ∧
    ∀ instr ∈ calls, instr.TakesAnswer
  caller : ∀ log call, rt.caller log call = .ok call.body

namespace VM

variable {rt : Runtime} {count : UInt8} {vm : VM} {instr : Instruction}

theorem execNext_echo (echoes : rt.Echoes count) (body : Bytes) (asyncAck : Bool)
    (takes : asyncAck = true → instr.hasRetry = false) (log : List Call) :
    (execNext rt.caller body instr rt.plan asyncAck log).1 = .ok body := by
  unfold execNext
  split
  · rename_i retried
    have noAck : asyncAck = false := by
      cases asyncAck with
      | false => rfl
      | true =>
        rw [takes rfl] at retried
        cases retried
    simp [execWithRetry, retryLoop, echoes.caller, noAck]
  · exact echoes.caller _ _

theorem dispatch_echo (echoes : rt.Echoes count) (takes : instr.TakesAnswer) :
    ∃ vm', dispatch rt instr vm = (vm', .ok ()) ∧ vm'.ctx.body = vm.ctx.body ∧ vm'.ctx.ip = vm.ctx.ip := by
  have call : ∀ isAsync, (isAsync = true → instr.hasRetry = false) →
      (opNext rt instr isAsync vm).ctx.body = vm.ctx.body ∧ (opNext rt instr isAsync vm).ctx.ip = vm.ctx.ip := by
    intro isAsync single
    simp only [opNext, execNext_echo echoes vm.ctx.body isAsync single]
    exact ⟨rfl, rfl⟩
  rcases takes with next | ⟨async, single⟩
  · exact ⟨opNext rt instr false vm, by simp only [dispatch, next], call false nofun⟩
  · exact ⟨opNext rt instr true vm, by simp only [dispatch, async], call true fun _ => single⟩

theorem halts_echo (echoes : rt.Echoes count) (left : Nat) : ∀ vm : VM, 0 < vm.ctx.ip →
    vm.ctx.ip + left = rt.plan.instructions.length →
    ∃ vm', (runLoop rt).Halts vm (vm', .ok ()) ∧ vm'.ctx.body = vm.ctx.body := by
  induction left with
  | zero =>
    intro vm _ ends
    exact ⟨vm, ⟨vm, .refl, runLoop_halt.mpr (.inl ⟨getElem?_eq_none ends.ge, rfl⟩)⟩, rfl⟩
  | succ left ih =>
    intro vm positive ends
    obtain ⟨first, calls, whole, -, -, takes⟩ := echoes.plan
    obtain ⟨k, step⟩ : ∃ k, vm.ctx.ip = k + 1 := ⟨vm.ctx.ip - 1, by omega⟩
    rw [whole, length_cons] at ends
    obtain ⟨instr, there⟩ : ∃ instr, calls[k]? = some instr := ⟨_, getElem?_eq_getElem (by omega)⟩
    have here : rt.plan.instructions[vm.ctx.ip]? = some instr := by
      rw [whole, step, getElem?_cons_succ, there]
    obtain ⟨next, dispatched, body, ip⟩ :=
      @dispatch_echo rt count vm.advance instr echoes (takes instr (mem_of_getElem? there))
    have moved : next.ctx.ip = vm.ctx.ip + 1 := ip
    obtain ⟨last, halts, same⟩ := ih next (by omega) (by rw [whole, length_cons]; omega)
    exact ⟨last, halts.before (.single (runLoop_step.mpr ⟨_, here, dispatched⟩)), same.trans body⟩

end VM

namespace ExecutionRuntime

variable {rt : Runtime} {count : UInt8}

theorem runsVm_echo (echoes : rt.Echoes count) (log : List Call) (body : Bytes) :
    ∃ log', RunsVm rt log body (.ok body) log' := by
  obtain ⟨first, calls, whole, chunk, -, -⟩ := echoes.plan
  let start := (VM.init (.fromBody body)).setCalls log
  have here : rt.plan.instructions[start.ctx.ip]? = some first := by
    rw [whole]
    rfl
  have dispatched : VM.dispatch rt first start.advance = (start.advance, .ok ()) := by
    simp only [VM.dispatch, chunk]
  obtain ⟨vm, halts, same⟩ := VM.halts_echo echoes calls.length start.advance Nat.one_pos (by
    rw [whole, Nat.add_comm]
    rfl)
  refine ⟨vm.calls, vm, .ok (), halts.before (.single (VM.runLoop_step.mpr ⟨first, here, dispatched⟩)), ?_, rfl⟩
  exact congrArg Except.ok same.symm

theorem runsAll_echo (echoes : rt.Echoes count) (chunks : List Bytes) :
    ∀ log, ∃ log', RunsAll rt chunks log (.ok chunks) log' := by
  induction chunks with
  | nil => exact fun log => ⟨log, rfl, rfl⟩
  | cons chunk chunks ih =>
    intro log
    obtain ⟨mid, first⟩ := runsVm_echo echoes log chunk
    obtain ⟨log', later⟩ := ih mid
    exact ⟨log', .inr ⟨chunk, mid, .ok chunks, first, later, rfl⟩⟩

def pieceSize (body : Bytes) (count : UInt8) : Nat := (body.length + count.toNat - 1) / count.toNat

/-- What the pieces of a body are read as. -/
def pieceValues (host : Host) (body : Bytes) (count : UInt8) : List Json :=
  (Chunks.chunks (pieceSize body count) body).map host.valueOrNull

/-- A text behind other bytes lies within one piece. -/
def WithinPiece (size : Nat) (before text : Bytes) : Prop :=
  ∃ k, k * size ≤ before.length ∧ before.length + text.length ≤ (k + 1) * size

section

variable {host : Host} {before text after : Bytes} {items : List Json} {size k : Nat}

theorem valueOrNull_blank (skips : host.SkipsBlanks) {bytes : Bytes} (blank : Blank bytes) :
    host.valueOrNull bytes = .null := by
  unfold Host.valueOrNull
  split
  · rename_i read
    exact absurd read (skips.blank blank)
  · rfl

theorem valueOrNull_piece (skips : host.SkipsBlanks) (left : Blank before) (right : Blank after)
    (read : host.fromSlice text = .ok (.arr items)) (starts : k * size ≤ before.length)
    (ends : before.length + text.length ≤ (k + 1) * size) (j : Nat) :
    host.valueOrNull (Chunks.piece size (before ++ text ++ after) j) = if j = k then .arr items else .null := by
  rcases Nat.lt_trichotomy j k with earlier | rfl | later
  · rw [if_neg earlier.ne]
    exact valueOrNull_blank skips fun b inside => left b (Chunks.piece_before starts earlier b inside)
  · obtain ⟨front, back, whole, fromLeft, fromRight⟩ := @Chunks.piece_around _ _ _ _ _ after starts ends
    rw [if_pos rfl, whole, Host.valueOrNull, (skips.around (fun b inside => left b (fromLeft b inside))
      fun b inside => right b (fromRight b inside)).mpr read]
  · rw [if_neg later.ne']
    exact valueOrNull_blank skips fun b inside => right b (Chunks.piece_after ends later b inside)

theorem map_range_single {α : Type} (m : Nat) (inside : k < m) (here other : α) :
    (List.range m).map (fun j => if j = k then here else other) =
      List.replicate k other ++ here :: List.replicate (m - (k + 1)) other := by
  apply ext_getElem
  · simp
    omega
  · intro i _ _
    simp only [getElem_map, getElem_range, getElem_append, getElem_cons, getElem_replicate, length_replicate]
    split_ifs <;> first | rfl | omega

theorem flatMap_nulls (i : Nat) : (List.replicate i Json.null).flatMap Json.elements = [] := by
  rw [flatMap_eq_nil_iff]
  intro value inside
  rw [eq_of_mem_replicate inside]
  rfl

theorem map_chunks (skips : host.SkipsBlanks) (left : Blank before) (right : Blank after)
    (read : host.fromSlice text = .ok (.arr items)) (starts : k * size ≤ before.length)
    (ends : before.length + text.length ≤ (k + 1) * size) : ∃ i j,
    (Chunks.chunks size (before ++ text ++ after)).map host.valueOrNull =
      List.replicate i .null ++ .arr items :: List.replicate j .null := by
  have some : text ≠ [] := by
    rintro rfl
    exact skips.blank (forall_mem_nil _) read
  have positive := length_pos_of_ne_nil some
  have inside : k < ((before ++ text ++ after).length + size - 1) / size := by
    have sized : 0 < size := by
      by_contra none
      obtain rfl : size = 0 := by omega
      omega
    rw [← Nat.succ_le_iff, Nat.le_div_iff_mul_le sized, Nat.succ_mul]
    simp only [length_append]
    omega
  have values : (Chunks.chunks size (before ++ text ++ after)).map host.valueOrNull = _ :=
    (map_map).trans (map_congr_left fun j _ => valueOrNull_piece skips left right read starts ends j)
  exact ⟨_, _, values.trans (map_range_single _ inside _ _)⟩

end

theorem splitChunks_cases (body : Bytes) (count : UInt8) :
    splitChunks body count (body.length / (max count 1).toNat) = .ok none ∨
      0 < count.toNat ∧ count ≠ 1 ∧ splitChunks body count (body.length / (max count 1).toNat) =
        .ok (some (Chunks.chunks (pieceSize body count) body)) := by
  unfold splitChunks
  split
  · exact .inl rfl
  · rename_i long
    have several : ∀ small : UInt8, max small 1 = 1 → count ≠ small := by
      rintro small one rfl
      rw [one] at long
      exact long (Nat.div_one _).ge
    have positive : count.toNat ≠ 0 := fun zero => several 0 rfl (UInt8.toNat_inj.mp zero)
    rw [if_neg (several 0 rfl)]
    exact .inr ⟨Nat.pos_of_ne_zero positive, several 1 rfl, rfl⟩

/-- The pieces of `split_chunks`; and what `exec_chunked` gives it never makes it divide by zero. -/
theorem splitChunks_partition (body : Bytes) (count : UInt8) (threshold : Nat) (some : 1 ≤ count)
    (long : threshold < body.length) :
    (∃ chunks, splitChunks body count threshold = .ok (.some chunks) ∧ chunks.flatten = body ∧
      (∀ part ∈ chunks, part ≠ []) ∧ chunks.length ≤ count.toNat ∧
      ∃ size, ∀ k part, chunks[k]? = .some part → part.length ≤ size ∧ (k + 1 < chunks.length → part.length = size)) ∧
    ∀ count, splitChunks body count (body.length / (max count 1).toNat) ≠ .error .panic := by
  have positive : 0 < count.toNat := UInt8.le_iff_toNat_le.mp some
  constructor
  · refine ⟨_, ?_, Chunks.flatten_chunks (Nat.div_pos (by omega) positive) body, fun _ => Chunks.ne_nil_of_mem_chunks,
      Chunks.length_chunks_le body positive, _, fun _ _ => Chunks.length_chunk⟩
    rw [splitChunks, if_neg (by omega), if_neg]
    rintro rfl
    cases positive
  · intro count
    rcases splitChunks_cases body count with whole | ⟨-, -, pieces⟩
    · rw [whole]
      simp
    · rw [pieces]
      simp

theorem splitChunks_partition_uneven : (1 : UInt8) ≤ 4 ∧ 1 < [1, 2, 3, 4, 5, 6, 7, 8, 9].length ∧ ∃ chunks : List Bytes,
    splitChunks [1, 2, 3, 4, 5, 6, 7, 8, 9] 4 1 = .ok (some chunks) ∧ chunks.length ≤ 4 := by
  obtain ⟨⟨chunks, split, -, -, few, -⟩, -⟩ :=
    splitChunks_partition [1, 2, 3, 4, 5, 6, 7, 8, 9] 4 1 (by decide) (by decide)
  exact ⟨by decide, by decide, chunks, split, few⟩

/-- What `execute` returns: the body, or the array of what the pieces are read as. -/
theorem executes_echo {self : ExecutionRuntime} (echoes : self.machine.Echoes count) (body : Bytes) :
    (∃ after, self.Executes body (.ok body) after) ∨ 0 < count.toNat ∧ count ≠ 1 ∧ ∃ after,
        self.Executes body (.ok (joinChunks self.machine.host (Chunks.chunks (pieceSize body count) body))) after := by
  obtain ⟨first, calls, whole, chunk, rfl, -⟩ := echoes.plan
  have starts : self.machine.plan.instructions.head? = some first := by
    rw [whole]
    rfl
  rcases splitChunks_cases body first.a.toUInt8 with split | ⟨positive, several, split⟩
  · left
    obtain ⟨log, runs⟩ := runsVm_echo echoes self.calls body
    refine ⟨_, .chunk starts chunk (show RunsChunked _ _ _ _ _ log from ?_)⟩
    rw [RunsChunked, split]
    exact runs
  · refine .inr ⟨positive, several, ?_⟩
    obtain ⟨log, runs⟩ := runsAll_echo echoes (Chunks.chunks (pieceSize body first.a.toUInt8) body) self.calls
    refine ⟨_, .chunk starts chunk (show RunsChunked _ _ _ _ _ log from ?_)⟩
    rw [RunsChunked, split]
    exact ⟨_, runs, rfl⟩

end ExecutionRuntime

theorem strip_around {before text after : Bytes} (left : Blank before) (right : Blank after) :
    ((before ++ text ++ after).dropWhile isBlankByte).rdropWhile isBlankByte =
      (text.dropWhile isBlankByte).rdropWhile isBlankByte := by
  have back : ∀ bytes : Bytes, (bytes ++ after).rdropWhile isBlankByte = bytes.rdropWhile isBlankByte := by
    intro bytes
    rw [List.rdropWhile, reverse_append, dropWhile_append_of_pos fun b inside => right b (mem_reverse.mp inside),
      List.rdropWhile]
  rw [append_assoc, dropWhile_append_of_pos left, dropWhile_append]
  split
  · rename_i empty
    rw [List.isEmpty_iff] at empty
    rw [empty, dropWhile_eq_nil_iff.mpr right]
  · exact back _

theorem reading_skipsBlanks {texts : List (String × Json)}
    (some : ∀ text ∈ texts, Utf8.encode text.1 ≠ [] ∧ text.2.elements ≠ []) :
    (Host.reading texts).SkipsBlanks where
  around left right := by
    simp only [Host.reading, strip_around left right]
  blank := by
    intro bytes value blank
    simp only [Host.reading, dropWhile_eq_nil_iff.mpr blank]
    split
    · rename_i text found
      have empty := find?_some found
      exact absurd (of_decide_eq_true empty) (some text (mem_of_find?_eq_some found)).1
    · nofun
  empty := by
    intro bytes part value read
    simp only [Host.reading] at read
    split at read
    · rename_i text found
      exact absurd (congrArg Json.elements (Except.ok.inj read)) (some text (mem_of_find?_eq_some found)).2
    · cases read

namespace ExecutionRuntime

def chunkHost : Host := Host.reading [("[true]", .arr [.bool true]), ("[[true],null]", .arr [.arr [.bool true], .null]),
    ("[null,null]", .arr [.null, .null])]

def chunkRuntime : ExecutionRuntime where
  machine := ⟨chunkHost, .inOrder, { ExecutionPlan.new "r" with instructions := [.chunk 2 0, .next 0 0] },
    fun _ call => .ok call.body⟩

theorem chunkRuntime_echoes : chunkRuntime.machine.Echoes 2 where
  plan := ⟨_, _, rfl, rfl, rfl, List.forall_mem_singleton.mpr (.inl rfl)⟩
  caller _ _ := rfl

end ExecutionRuntime

end FlowRulZ
