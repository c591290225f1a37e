import FlowRulZ.Dsl.FanOut
import FlowRulZ.Dsl.Jumps
import FlowRulZ.Dsl.Optimizer
import FlowRulZ.Executor.Segments

/-! # The code of merged emits

`merge_emits` makes one emit of neighbouring ones.  The code of the new list is that of the old one
piece by piece, where a piece is the code of one node or that of neighbouring emits.  Pieces are
shorter in the new code, so labels have other indices there, and jumps other operands.
-/

open List

namespace FlowRulZ

open Interner

/-! ## Two codes, piece by piece -/

def emitCode (ids : List UInt16) : List Instruction :=
  .emit (UInt8.ofNat ids.length) (ids.headD 0) :: ids.map .svcArg

/-- What a node or neighbouring emits are compiled to, with and without merging. -/
inductive Piece where
  | plain (head : Instruction) (args : List Instruction)
  | jump (merged apart : UInt16)
  | emits (runs : List (List UInt16))

namespace Piece

def merged : Piece → List Instruction
  | plain head args => head :: args
  | jump target _ => [.jmp target, .jumpOffset target]
  | emits runs => emitCode runs.flatten

def apart : Piece → List Instruction
  | plain head args => head :: args
  | jump _ target => [.jmp target, .jumpOffset target]
  | emits runs => runs.flatMap emitCode

end Piece

def OneOf (code : Piece → List Instruction) : Prop := code = Piece.apart ∨ code = Piece.merged

def startOf (code : Piece → List Instruction) (pieces : List Piece) (n : Nat) : Nat :=
  ((pieces.take n).flatMap code).length

def emitCount (length : Nat) : Nat := length % 2 ^ 8

/-- The rows of each emit begin behind those of the one before. -/
def RowsFollow (row : Nat) : List (List UInt16) → Prop
  | [] => True
  | ids :: rest => ids ≠ [] ∧ (ids.headD 0).toNat = row ∧ RowsFollow (row + emitCount ids.length) rest

def rowCount (runs : List (List UInt16)) : Nat := (runs.map fun ids => emitCount ids.length).sum

def Piece.Fits (pieces : List Piece) : Piece → Prop
  | plain head args => head.op ≠ .jmp ∧ (∀ arg ∈ args, arg.op.isArg = true) ∧ (head.op = .gate → args.length = 1)
  | jump merged apart =>
    ∃ n < pieces.length, merged.toNat = startOf Piece.merged pieces n ∧ apart.toNat = startOf Piece.apart pieces n
  | emits runs => runs ≠ [] ∧ rowCount runs < 2 ^ 8 ∧ ∃ row, RowsFollow row runs

section

variable {pieces more : List Piece} {piece : Piece} {n : Nat}

variable {code : Piece → List Instruction}

theorem startOf_append (inside : n ≤ pieces.length) : startOf code (pieces ++ more) n = startOf code pieces n := by
  rw [startOf, startOf, take_append_of_le_length inside]

theorem drop_startOf (code : Piece → List Instruction) (pieces : List Piece) (n : Nat) :
    (pieces.flatMap code).drop (startOf code pieces n) = (pieces.drop n).flatMap code := by
  conv_lhs => rw [← take_append_drop n pieces, flatMap_append, take_append_drop]
  exact drop_left

theorem startOf_succ (here : pieces[n]? = some piece) :
    startOf code pieces (n + 1) = startOf code pieces n + (code piece).length := by
  rw [startOf, startOf, take_add_one, here, flatMap_append]
  simp

theorem startOf_length (code : Piece → List Instruction) (pieces : List Piece) :
    startOf code pieces pieces.length = (pieces.flatMap code).length := by
  rw [startOf, take_length]

theorem startOf_add (code : Piece → List Instruction) (pieces : List Piece) (n m : Nat) :
    startOf code pieces (n + m) = startOf code pieces n + startOf code (pieces.drop n) m := by
  rw [startOf, take_add, flatMap_append, length_append]
  rfl

theorem Piece.Fits.move {others : List Piece} (fits : piece.Fits pieces) (agree : ∀ n < pieces.length,
    n < others.length ∧ ∀ code, startOf code others n = startOf code pieces n) : piece.Fits others := by
  cases piece with
  | plain head args => exact fits
  | emits runs => exact fits
  | jump merged apart =>
    obtain ⟨n, inside, atMerged, atApart⟩ := fits
    obtain ⟨inside', same⟩ := agree n inside
    exact ⟨n, inside', atMerged.trans (same _).symm, atApart.trans (same _).symm⟩

theorem Piece.Fits.grow (fits : piece.Fits pieces) (more : List Piece) : piece.Fits (pieces ++ more) :=
  fits.move fun n inside => ⟨by simp; omega, fun _ => startOf_append inside.le⟩

theorem Piece.Fits.last {front : List Piece} {last other : Piece} (fits : piece.Fits (front ++ [last])) :
    piece.Fits (front ++ [other]) := by
  refine fits.move fun n inside => ?_
  rw [length_append, length_singleton] at inside
  exact ⟨by simpa using inside, fun _ => by rw [startOf_append (by omega), startOf_append (by omega)]⟩

theorem emitCode_length (ids : List UInt16) : (emitCode ids).length = ids.length + 1 := by
  simp [emitCode]

theorem apart_emits_length (runs : List (List UInt16)) :
    (runs.flatMap emitCode).length = runs.flatten.length + runs.length := by
  induction runs with
  | nil => rfl
  | cons ids runs ih =>
    simp only [flatMap_cons, length_append, emitCode_length, flatten_cons, length_cons]
    omega

theorem OneOf.plain (either : OneOf code) (head : Instruction)
    (args : List Instruction) : code (.plain head args) = head :: args := by
  rcases either with rfl | rfl <;> rfl

/-- A piece is an instruction with its arguments, or it has a jump or emits and nothing else. -/
theorem Piece.Fits.kind (either : OneOf code) (fits : piece.Fits pieces) :
    (∃ head args, piece = .plain head args) ∨ (code piece ≠ [] ∧
      ∀ instr ∈ code piece, instr.op = .jmp ∨ instr.op = .jumpOffset ∨ instr.op = .emit ∨ instr.op = .svcArg) := by
  have ofEmit : ∀ ids, ∀ instr ∈ emitCode ids,
      instr.op = .jmp ∨ instr.op = .jumpOffset ∨ instr.op = .emit ∨ instr.op = .svcArg := by
    simp [emitCode, Instruction.emit, Instruction.svcArg]
  cases piece with
  | plain head args => exact .inl ⟨head, args, rfl⟩
  | jump merged apart =>
    refine .inr ?_
    rcases either with rfl | rfl <;> simp [Piece.apart, Piece.merged, Instruction.jmp, Instruction.jumpOffset]
  | emits runs =>
    refine .inr ?_
    rcases either with rfl | rfl
    · obtain ⟨first, more, rfl⟩ := exists_cons_of_ne_nil fits.1
      refine ⟨by simp [Piece.apart, emitCode], fun instr inside => ?_⟩
      obtain ⟨ids, -, here⟩ := mem_flatMap.mp inside
      exact ofEmit ids instr here
    · exact ⟨by simp [Piece.merged, emitCode], ofEmit _⟩

theorem Piece.Fits.shorter (fits : piece.Fits pieces) : piece.merged.length ≤ piece.apart.length := by
  cases piece with
  | plain head args => exact le_rfl
  | jump merged apart => exact le_rfl
  | emits runs =>
    have some : 0 < runs.length := length_pos_of_ne_nil fits.1
    simp only [merged, apart, emitCode_length, apart_emits_length]
    omega

theorem code_shorter {code : List Piece} (fits : ∀ piece ∈ code, piece.Fits pieces) :
    (code.flatMap Piece.merged).length ≤ (code.flatMap Piece.apart).length := by
  induction code with
  | nil => exact le_rfl
  | cons piece code ih =>
    have first := (fits piece mem_cons_self).shorter
    have rest := ih fun piece inside => fits piece (mem_cons_of_mem _ inside)
    simp only [flatMap_cons, length_append]
    omega

theorem rowsFollow_concat (runs : List (List UInt16)) (ids : List UInt16) : ∀ row, RowsFollow row (runs ++ [ids]) ↔
      RowsFollow row runs ∧ ids ≠ [] ∧ (ids.headD 0).toNat = row + rowCount runs := by
  induction runs with
  | nil => intro row; simp [RowsFollow, rowCount]
  | cons first runs ih =>
    intro row
    simp only [cons_append, RowsFollow, ih, rowCount, map_cons, sum_cons, and_assoc, Nat.add_assoc]

theorem rowCount_concat (runs : List (List UInt16)) (ids : List UInt16) :
    rowCount (runs ++ [ids]) = rowCount runs + emitCount ids.length := by
  simp [rowCount]

theorem emitCount_flatten {runs : List (List UInt16)} (small : rowCount runs < 2 ^ 8) :
    emitCount runs.flatten.length = rowCount runs := by
  have sum : emitCount runs.flatten.length = rowCount runs % 2 ^ 8 := by
    clear small
    induction runs with
    | nil => rfl
    | cons ids runs ih =>
      simp only [rowCount, emitCount, flatten_cons, length_append, map_cons, sum_cons] at ih ⊢
      omega
  rw [sum, Nat.mod_eq_of_lt small]

end

end FlowRulZ

namespace FlowRulZ.Optimizer

/-! ## Emits that can be merged -/

def firstRow (names targets : List String) : Nat := names.idxOf (targets.headD "") % 2 ^ 16

/-- One emit can stand for two: the count fits its operand, and the rows of the second emit begin behind those of the
first. -/
structure Adjoins (names left right : List String) : Prop where
  count : emitCount left.length + emitCount right.length < 2 ^ 8
  row : firstRow names right = firstRow names left + emitCount left.length

instance (names left right : List String) : Decidable (Adjoins names left right) :=
  decidable_of_iff (_ ∧ _) ⟨fun both => ⟨both.1, both.2⟩, fun adjoins => ⟨adjoins.count, adjoins.row⟩⟩

/-- Every emit that `merge_emits` appends to the ones before it adjoins them. -/
def Joins (names : List String) : Option (List String) → List ASTNode → Prop
  | _, [] => True
  | merged, .emit targets :: rest =>
    (∀ before ∈ merged, Adjoins names before targets) ∧ Joins names (some (merged.getD [] ++ targets)) rest
  | _, _ :: rest => Joins names none rest

end FlowRulZ.Optimizer

namespace FlowRulZ

open Interner Optimizer

/-- The index of a label that a later `jmp` goes back to fits in 16 bits. -/
def JumpsFit (nodes : List ASTNode) : Prop :=
  ∀ pre target post, nodes = pre ++ .jmp target :: post →
    ∀ pre' post', pre = pre' ++ .label target :: post' → codeLen pre' < 2 ^ 16

/-! ## Compiling a list and its merged list side by side -/

namespace Compiler

/-- No place, or that of a piece in both codes. -/
def Places (pieces : List Piece) (apart merged : Option Nat) : Prop :=
  (apart = none ∧ merged = none) ∨ ∃ n < pieces.length,
    apart = some (startOf Piece.apart pieces n) ∧ merged = some (startOf Piece.merged pieces n)

/-- The states of the two loops: all but the code and the places in it is the same. -/
structure Beside (pieces : List Piece) (st st' : State) : Prop where
  plan : st'.plan = st.plan
  retry : st'.pendingRetry = st.pendingRetry
  timeout : st'.pendingTimeoutMs = st.pendingTimeoutMs
  apart : st.instructions = pieces.flatMap Piece.apart
  merged : st'.instructions = pieces.flatMap Piece.merged
  labels : ∀ name, Places pieces (st.labels.lookup name) (st'.labels.lookup name)
  fits : ∀ piece ∈ pieces, piece.Fits pieces

variable {self : Compiler} {pieces : List Piece} {piece : Piece} {st st' st₁ st₁' : State} {node : ASTNode}

theorem fits_push (fits : ∀ piece ∈ pieces, piece.Fits pieces) (last : piece.Fits (pieces ++ [piece])) :
    ∀ other ∈ pieces ++ [piece], other.Fits (pieces ++ [piece]) := by
  intro other inside
  rcases mem_append.mp inside with earlier | same
  · exact (fits other earlier).grow [piece]
  · exact mem_singleton.mp same ▸ last

section

variable (beside : Beside pieces st st')
include beside

theorem Beside.labels_grow (more : List Piece) (name : String) :
    Places (pieces ++ more) (st.labels.lookup name) (st'.labels.lookup name) := by
  rcases beside.labels name with unknown | ⟨n, inside, found, found'⟩
  · exact .inl unknown
  · refine .inr ⟨n, by simp; omega, ?_, ?_⟩
    · rw [found, startOf_append inside.le]
    · rw [found', startOf_append inside.le]

theorem Beside.push (fits : piece.Fits (pieces ++ [piece]))
    (plan : st₁'.plan = st₁.plan) (retry : st₁'.pendingRetry = st₁.pendingRetry)
    (timeout : st₁'.pendingTimeoutMs = st₁.pendingTimeoutMs)
    (apart : st₁.instructions = st.instructions ++ piece.apart)
    (merged : st₁'.instructions = st'.instructions ++ piece.merged)
    (labels : st₁.labels = st.labels) (labels' : st₁'.labels = st'.labels) : Beside (pieces ++ [piece]) st₁ st₁' where
  plan := plan
  retry := retry
  timeout := timeout
  apart := by simp [apart, beside.apart]
  merged := by simp [merged, beside.merged]
  fits := fits_push beside.fits fits
  labels := by
    intro name
    rw [labels, labels']
    exact beside.labels_grow [piece] name

theorem Beside.label {name : String} (compiled : self.compileNode st (.label name) = .ok st₁) :
    ∃ st₁' pieces₁, self.compileNode st' (.label name) = .ok st₁' ∧ Beside pieces₁ st₁ st₁' := by
  obtain ⟨unknown, rfl⟩ := compileNode_label compiled
  have unknown' : st'.labels.lookup name = none := by
    rcases beside.labels name with ⟨-, absent⟩ | ⟨n, -, found, -⟩
    · exact absent
    · rw [unknown] at found
      cases found
  refine ⟨{ st' with labels := (name, st'.instructions.length) :: st'.labels }.push .label,
    pieces ++ [.plain .label []], ?_, ?_⟩
  · simp only [compileNode, unknown', Option.isSome_none, Bool.false_eq_true, if_false]
  · have atEnd (code : Piece → List Instruction) :
        startOf code (pieces ++ [.plain .label []]) pieces.length = (pieces.flatMap code).length := by
      rw [startOf_append le_rfl, startOf_length]
    exact {
      plan := beside.plan
      retry := beside.retry
      timeout := beside.timeout
      apart := by simp [State.push, beside.apart, Piece.apart]
      merged := by simp [State.push, beside.merged, Piece.merged]
      fits := fits_push beside.fits ⟨by decide, by simp, by decide⟩
      labels := by
        intro other
        by_cases same : other = name
        · subst same
          exact .inr ⟨pieces.length, by simp, by simp [State.push, atEnd, beside.apart],
            by simp [State.push, atEnd, beside.merged]⟩
        · have apart : (other == name) = false := beq_false_of_ne same
          simp only [State.push, lookup_cons, apart]
          exact beside.labels_grow _ other }

theorem Beside.jmp {target : String} (small : ∀ index, st.labels.lookup target = some index → index < 2 ^ 16)
    (compiled : self.compileNode st (.jmp target) = .ok st₁) :
    ∃ st₁' pieces₁, self.compileNode st' (.jmp target) = .ok st₁' ∧ Beside pieces₁ st₁ st₁' := by
  simp only [compileNode, Except.ok.injEq] at compiled
  subst compiled
  refine ⟨_, pieces ++ [.jump (UInt16.ofNat ((st'.labels.lookup target).getD 0))
    (UInt16.ofNat ((st.labels.lookup target).getD 0))],
    rfl, beside.push ?_ beside.plan beside.retry beside.timeout ?_ ?_ rfl rfl⟩
  · rcases beside.labels target with ⟨unknown, unknown'⟩ | ⟨n, inside, found, found'⟩
    · exact ⟨0, by simp, by simp [unknown', startOf], by simp [unknown, startOf]⟩
    · have fitting := small _ found
      have shorter : startOf Piece.merged pieces n ≤ startOf Piece.apart pieces n :=
        code_shorter fun piece inside => beside.fits piece (mem_of_mem_take inside)
      refine ⟨n, by simp; omega, ?_, ?_⟩
      · rw [found', startOf_append inside.le, Option.getD_some, UInt16.toNat_ofNat', Nat.mod_eq_of_lt (by omega)]
      · rw [found, startOf_append inside.le, Option.getD_some, UInt16.toNat_ofNat', Nat.mod_eq_of_lt fitting]
  · simp [State.push, Piece.apart]
  · simp [State.push, Piece.merged]

end

section

variable (notLabel : ∀ name, node ≠ .label name) (notJmp : ∀ target, node ≠ .jmp target)
include notLabel notJmp

/-- The other nodes only append to the code, and read neither it nor the labels. -/
theorem compileNode_relocates (st : State) : self.compileNode st node =
      (self.compileNode { st with labels := [], instructions := [] } node).map fun base =>
        { base with labels := st.labels, instructions := st.instructions ++ base.instructions } := by
  cases node with
  | label name => exact absurd rfl (notLabel name)
  | jmp target => exact absurd rfl (notJmp target)
  | parallel targets | emit targets =>
    simp only [compileNode, compileFanOut]
    split <;> rfl
  | dag body =>
    simp only [compileNode]
    split <;> rfl
  | gate field op value => simp [compileNode, State.push, State.addConst, State.constId, Except.map]
  | timeout ms | retry count strategy fixedMs | pipe => simp [compileNode, Except.map]
  | _ => rfl

theorem compileNode_elsewhere (compiled : self.compileNode st node = .ok st₁) :
    ∃ code, code.map (·.op) = node.ops ∧ st₁.instructions = st.instructions ++ code ∧ st₁.labels = st.labels ∧
      ∀ labels instructions, self.compileNode { st with labels := labels, instructions := instructions } node =
        .ok { st₁ with labels := labels, instructions := instructions ++ code } := by
  rw [compileNode_relocates notLabel notJmp] at compiled
  cases fresh : self.compileNode { st with labels := [], instructions := [] } node with
  | error e =>
    rw [fresh] at compiled
    cases compiled
  | ok base =>
    rw [fresh] at compiled
    cases compiled
    obtain ⟨code, rfl, shape⟩ := compileNode_code fresh
    refine ⟨_, shape, rfl, rfl, fun labels instructions => ?_⟩
    rw [compileNode_relocates notLabel notJmp]
    exact congrArg _ fresh

end

theorem ops_plain (notJmp : ∀ target, node ≠ .jmp target) {code : List Instruction}
    (shape : code.map (·.op) = node.ops) :
    code = [] ∨ ∃ head args, code = head :: args ∧ ∀ pieces, Piece.Fits pieces (.plain head args) := by
  cases code with
  | nil => exact .inl rfl
  | cons head args =>
    obtain ⟨-, isGate, -, -, isJmp⟩ := ops_control shape.symm
    refine .inr ⟨head, args, rfl, fun pieces => ⟨?_, ?_, ?_⟩⟩
    · intro op
      obtain ⟨target, jumps⟩ := isJmp.mp op
      exact notJmp target (ASTNode.control_eq_jmp.mp jumps)
    · intro arg inside
      exact ops_args shape.symm _ (mem_map_of_mem inside)
    · intro op
      have length := congrArg List.length shape
      cases node <;> simp [ASTNode.ops, op] at shape length
      exact length

theorem Beside.other (beside : Beside pieces st st') (notLabel : ∀ name, node ≠ .label name)
    (notJmp : ∀ target, node ≠ .jmp target) (compiled : self.compileNode st node = .ok st₁) :
    ∃ st₁' pieces₁, self.compileNode st' node = .ok st₁' ∧ Beside pieces₁ st₁ st₁' := by
  obtain ⟨code, shape, grown, labels, elsewhere⟩ := compileNode_elsewhere notLabel notJmp compiled
  have compiled' := elsewhere st'.labels st'.instructions
  rw [← beside.plan, ← beside.retry, ← beside.timeout] at compiled'
  rcases ops_plain notJmp shape with rfl | ⟨head, args, rfl, fits⟩
  · refine ⟨_, pieces, compiled', ?_⟩
    rw [append_nil] at grown ⊢
    exact ⟨rfl, rfl, rfl, grown.trans beside.apart, by simp [beside.merged], labels ▸ beside.labels, beside.fits⟩
  · exact ⟨_, _, compiled', beside.push (fits _) rfl rfl rfl grown rfl labels rfl⟩

theorem Beside.step (beside : Beside pieces st st')
    (small : ∀ target index, node = .jmp target → st.labels.lookup target = some index → index < 2 ^ 16)
    (compiled : self.compileNode st node = .ok st₁) :
    ∃ st₁' pieces₁, self.compileNode st' node = .ok st₁' ∧ Beside pieces₁ st₁ st₁' := by
  cases node with
  | label name => exact beside.label compiled
  | jmp target => exact beside.jmp (fun index => small target index rfl) compiled
  | _ => exact beside.other (by simp) (by simp) compiled

/-! ## Neighbouring emits -/

def State.emitted (st : State) (targets : List String) (code : List Instruction) : State :=
  { st with
    plan := { st.plan with services := (st.plan.services.addAll targets).1 }
    instructions := st.instructions ++ code }

theorem compileNode_emit {targets : List String} (some : targets ≠ []) :
    self.compileNode st (.emit targets) = .ok (st.emitted targets (emitCode (st.plan.services.addAll targets).2)) := by
  cases targets with
  | nil => exact absurd rfl some
  | cons first rest => rfl

def idsIn (names targets : List String) : List UInt16 := targets.map fun name => UInt16.ofNat (names.idxOf name)

variable {names : List String}

/-- Emits one after the other enter their targets, and their codes follow each other. -/
theorem compileNodes_emits (runs : List (List String)) : ∀ {st : State},
    self.compileNodes st (runs.map .emit) = .ok st₁ → st₁.plan.services.entries <+: names →
    [] ∉ runs ∧ st₁ = st.emitted runs.flatten ((runs.map (idsIn names)).flatMap emitCode) := by
  induction runs with
  | nil =>
    intro st compiled _
    cases compiled
    exact ⟨not_mem_nil, by simp [State.emitted, addAll]⟩
  | cons run runs ih =>
    intro st compiled known
    obtain ⟨mid, one, rest⟩ := compileNodes_cons compiled
    obtain ⟨others, later⟩ := ih rest known
    have some : run ≠ [] := by
      rintro rfl
      cases one
    rw [compileNode_emit some, Except.ok.injEq] at one
    have grown : (st.plan.services.addAll run).1.entries <+: names := by
      have first : mid.plan.services.entries = (st.plan.services.addAll run).1.entries := by rw [← one]; rfl
      exact first ▸ (services_grow rest).trans known
    rw [addAll_ids_grown grown] at one
    refine ⟨by simp [others, some.symm], ?_⟩
    rw [later, ← one]
    simp [State.emitted, addAll_append, idsIn]

def pending : List (List String) → Option (List String)
  | [] => none
  | runs => some runs.flatten

theorem pending_concat (runs : List (List String)) (targets : List String) :
    pending (runs ++ [targets]) = some ((pending runs).getD [] ++ targets) := by
  cases runs <;> simp [pending]

def Joined (names : List String) (runs : List (List String)) : Prop :=
  rowCount (runs.map (idsIn names)) < 2 ^ 8 ∧ ∃ row, RowsFollow row (runs.map (idsIn names))

theorem idsIn_row {names targets : List String} (some : targets ≠ []) :
    ((idsIn names targets).headD 0).toNat = firstRow names targets := by
  cases targets with
  | nil => exact absurd rfl some
  | cons first rest => simp [idsIn, firstRow]

theorem idsIn_flatten (names : List String) (runs : List (List String)) :
    (runs.map (idsIn names)).flatten = idsIn names runs.flatten := by
  rw [idsIn, map_flatten]
  rfl

theorem Joined.concat {runs : List (List String)} {targets : List String}
    (joined : Joined names runs) (known : [] ∉ runs) (some : targets ≠ [])
    (adjoins : ∀ before ∈ pending runs, Adjoins names before targets) : Joined names (runs ++ [targets]) := by
  have ids : idsIn names targets ≠ [] := by simpa [idsIn] using some
  have length : (idsIn names targets).length = targets.length := length_map _
  rw [Joined, map_append, map_singleton]
  cases runs with
  | nil =>
    refine ⟨?_, _, ids, rfl, trivial⟩
    simp only [map_nil, nil_append, rowCount, map_cons, sum_cons, sum_nil, emitCount]
    omega
  | cons first runs =>
    obtain ⟨small, row, follow⟩ := joined
    obtain ⟨count, next⟩ := adjoins _ rfl
    have total := emitCount_flatten small
    rw [idsIn_flatten, idsIn, length_map] at total
    have firstSome : first ≠ [] := fun same => known (same ▸ mem_cons_self)
    have start : firstRow names (first :: runs).flatten = row := by
      rw [← follow.2.1]
      cases first with
      | nil => exact absurd rfl firstSome
      | cons name first => rfl
    refine ⟨?_, row, (rowsFollow_concat _ _ row).mpr ⟨follow, ids, ?_⟩⟩
    · rw [rowCount_concat, ← total, length]
      exact count
    · rw [idsIn_row some, next, start, total]

/-- The merged code gets one emit for all that were held back. -/
theorem Beside.flush {runs : List (List String)} (beside : Beside pieces st st')
    (compiled : self.compileNodes st (runs.map .emit) = .ok st₁) (known : st₁.plan.services.entries <+: names)
    (joined : Joined names runs) : ∃ st₁' more,
      self.compileNodes st' ((pending runs).map .emit).toList = .ok st₁' ∧ Beside (pieces ++ more) st₁ st₁' := by
  obtain ⟨some, emitted⟩ := compileNodes_emits runs compiled known
  cases runs with
  | nil =>
    cases compiled
    exact ⟨st', [], rfl, by simpa using beside⟩
  | cons first runs =>
    have firstSome : first ≠ [] := fun same => some (same ▸ mem_cons_self)
    have nonempty : (first :: runs).flatten ≠ [] := by simp [firstSome]
    have table : (st'.plan.services.addAll (first :: runs).flatten).1.entries <+: names := by
      rw [beside.plan]
      rw [emitted] at known
      exact known
    refine ⟨st'.emitted (first :: runs).flatten (emitCode (idsIn names (first :: runs).flatten)),
      [.emits ((first :: runs).map (idsIn names))], ?_, ?_⟩
    · have one : self.compileNode st' _ = _ := compileNode_emit nonempty
      rw [addAll_ids_grown table] at one
      simp only [pending, Option.map_some, Option.toList_some, compileNodes, one]
      rfl
    · rw [emitted]
      refine beside.push ⟨by simp, joined⟩ ?_ beside.retry beside.timeout rfl ?_ rfl rfl
      · simp only [State.emitted, beside.plan]
      · simp only [State.emitted, Piece.merged, idsIn_flatten]

theorem mergeEmits_flush (merged : Option (List String)) {node : ASTNode} (notEmit : ∀ targets, node ≠ .emit targets)
    (rest : List ASTNode) :
    mergeEmits.go merged (node :: rest) = (merged.map .emit).toList ++ node :: mergeEmits.go none rest := by
  cases node with
  | emit targets => exact absurd rfl (notEmit targets)
  | _ => rfl

theorem joins_flush {merged : Option (List String)} {node : ASTNode}
    (notEmit : ∀ targets, node ≠ .emit targets) {rest : List ASTNode} (joins : Joins names merged (node :: rest)) :
    Joins names none rest := by
  cases node with
  | emit targets => exact absurd rfl (notEmit targets)
  | _ => exact joins

/-- Where the loop over the list ends, the loop over the merged list ends beside it. The emits of `runs` are compiled in
the one and held back in the other. -/
theorem Beside.mergeEmits {nodes : List ASTNode} {begin last : State} (jumps : JumpsFit nodes)
    (start : begin.labels = [] ∧ begin.instructions = []) (known : last.plan.services.entries <+: names)
    (rest : List ASTNode) : ∀ {pieces st st' st₁} done runs, nodes = done ++ rest →
      self.compileNodes begin done = .ok st₁ → self.compileNodes st₁ rest = .ok last →
      Beside pieces st st' → self.compileNodes st (runs.map .emit) = .ok st₁ → Joined names runs →
      Joins names (pending runs) rest → ∃ pieces last',
        self.compileNodes st' (mergeEmits.go (pending runs) rest) = .ok last' ∧ Beside pieces last last' := by
  induction rest with
  | nil =>
    intro pieces st st' st₁ done runs _ _ compiled beside held joined _
    cases compiled
    obtain ⟨last', more, flushed, ended⟩ := beside.flush held known joined
    exact ⟨_, last', flushed, ended⟩
  | cons node rest ih =>
    intro pieces st st' st₁ done runs split before compiled beside held joined joins
    obtain ⟨mid, one, later⟩ := compileNodes_cons compiled
    have split' : nodes = (done ++ [node]) ++ rest := by simp [split]
    have onward : self.compileNodes begin (done ++ [node]) = .ok mid := by
      rw [compileNodes_join before]
      simp only [compileNodes, one]
    have grown : st₁.plan.services.entries <+: names := (services_grow compiled).trans known
    by_cases emits : ∃ targets, node = .emit targets
    · obtain ⟨targets, rfl⟩ := emits
      have some : targets ≠ [] := by
        rintro rfl
        cases one
      have held' : self.compileNodes st ((runs ++ [targets]).map .emit) = .ok mid := by
        rw [map_append, compileNodes_join held]
        simp only [map_cons, map_nil, compileNodes, one]
      have joined' := joined.concat (compileNodes_emits runs held grown).1 some joins.1
      have joins' : Joins names (pending (runs ++ [targets])) rest := by
        rw [pending_concat]
        exact joins.2
      have ended := ih (done ++ [.emit targets]) (runs ++ [targets]) split' onward later beside held' joined' joins'
      rw [pending_concat] at ended
      exact ended
    · have notEmit : ∀ targets, node ≠ .emit targets := fun targets same => emits ⟨targets, same⟩
      obtain ⟨st₂, more, flushed, beside₂⟩ := beside.flush held grown joined
      have small : ∀ target index, node = .jmp target → st₁.labels.lookup target = some index → index < 2 ^ 16 := by
        rintro target index rfl found
        rcases compileNodes_label_source before found with early | ⟨pre, post, rfl, place⟩
        · rw [start.1] at early
          cases early
        · rw [place, start.2, length_nil, Nat.zero_add]
          exact jumps _ target rest split pre post rfl
      obtain ⟨mid', pieces', one', beside'⟩ := beside₂.step small one
      have empty : Joined names [] := ⟨by simp [rowCount], 0, trivial⟩
      obtain ⟨pieces₂, last', ended, final⟩ := ih (done ++ [node]) [] split' onward later beside' rfl empty
        (joins_flush notEmit joins)
      refine ⟨pieces₂, last', ?_, final⟩
      rw [mergeEmits_flush _ notEmit, compileNodes_join flushed]
      simp only [compileNodes, one']
      exact ended

/-! ## The plans of a list and of its merged list -/

/-- The code of two plans, piece by piece; their tables are the same. -/
structure Paired (pieces : List Piece) (plan plan' : ExecutionPlan) : Prop where
  tables : plan' = { plan with
    instructions := plan'.instructions, instrCount := plan'.instrCount, complexityScore := plan'.complexityScore }
  apart : plan.instructions = pieces.flatMap Piece.apart
  merged : plan'.instructions = pieces.flatMap Piece.merged
  fits : ∀ piece ∈ pieces, piece.Fits pieces

theorem parsedSchema_mergeEmits (rest : List ASTNode) :
    ∀ merged, self.parsedSchema (mergeEmits.go merged rest) = self.parsedSchema rest := by
  induction rest with
  | nil =>
    intro merged
    cases merged <;> rfl
  | cons node rest ih =>
    intro merged
    cases node with
    | emit targets => exact ih _
    | schema body => cases merged <;> rfl
    | _ => cases merged <;> exact ih none

theorem typeCheck_mergeEmits (schema : Schema) (rest : List ASTNode) :
    ∀ merged, self.typeCheck schema (mergeEmits.go merged rest) = self.typeCheck schema rest := by
  induction rest with
  | nil =>
    intro merged
    cases merged <;> rfl
  | cons node rest ih =>
    intro merged
    cases node with
    | emit targets => exact ih _
    | gate field op value | map expr =>
      have same := ih none
      cases merged <;> simp [mergeEmits.go, typeCheck, same]
    | _ => cases merged <;> exact ih none

theorem checkSchema_mergeEmits (nodes : List ASTNode) : self.checkSchema (mergeEmits nodes) = self.checkSchema nodes := by
  simp only [checkSchema, Optimizer.mergeEmits, parsedSchema_mergeEmits, typeCheck_mergeEmits]

/-- A retry is attached to the same instruction of both codes. -/
theorem attachRetry_pieces (plan : ExecutionPlan) (fits : ∀ piece ∈ pieces, piece.Fits pieces)
    (retry : Option RetryConfig) : ∃ (plan₁ : ExecutionPlan) (pieces₁ : List Piece),
      (∀ code, OneOf code → attachRetry plan (pieces.flatMap code) retry = (plan₁, pieces₁.flatMap code)) ∧
        ∀ piece ∈ pieces₁, piece.Fits pieces₁ := by
  rcases eq_nil_or_concat pieces with rfl | ⟨front, last, split⟩
  · exact ⟨plan, [], fun code _ => by cases retry <;> rfl, fits⟩
  rw [concat_eq_append] at split
  subst split
  have fit := fits last (by simp)
  simp only [flatMap_append, flatMap_singleton]
  by_cases plain : ∃ head args, last = .plain head args
  · obtain ⟨head, args, rfl⟩ := plain
    rcases attachRetry_cases plan (head :: args) retry with ⟨same, -⟩ | ⟨cfg, init, last, -, split, service, attached⟩
    · refine ⟨plan, front ++ [.plain head args], fun code either => ?_, fits⟩
      rw [either.plain, attachRetry_append (cons_ne_nil _ _), same]
      simp [either.plain]
    · -- a service call has no arguments, so it is all there is
      have alone : init = [] := by
        cases init with
        | nil => rfl
        | cons first init =>
          obtain ⟨rfl, rfl⟩ := List.cons.inj split
          have arg := fit.2.1 last (by simp)
          rcases service with op | op <;> rw [op] at arg <;> cases arg
      subst alone
      obtain ⟨rfl, rfl⟩ := List.cons.inj split
      refine ⟨(attachRetry plan [head] retry).1,
        front ++ [.plain { head with flags := head.flags ||| 0x01, c := UInt16.ofNat plan.retryConfigs.length } []],
        fun code either => ?_, fun piece inside => ?_⟩
      · rw [either.plain, attachRetry_append (cons_ne_nil _ _), attached]
        simp [either.plain]
      · rcases mem_append.mp inside with earlier | same
        · exact (fits piece (mem_append_left _ earlier)).last
        · rw [mem_singleton.mp same]
          exact ⟨fit.1, by simp, fit.2.2⟩
  · refine ⟨plan, front ++ [last], fun code either => ?_, fits⟩
    obtain ⟨some, ops⟩ := (fit.kind either).resolve_left plain
    have idle : ∀ instr ∈ code last, instr.op ≠ .next ∧ instr.op ≠ .async := by
      intro instr inside
      rcases ops instr inside with op | op | op | op <;> simp [op]
    rw [attachRetry_append some, attachRetry_idle idle]
    simp

theorem Beside.finish (beside : Beside pieces st st') (fresh : st.plan.instructions = []) (schema : Option Schema) :
    ∃ pieces₁, Paired pieces₁ (finish schema st) (finish schema st') := by
  obtain ⟨plan₁, pieces₁, attached, fits⟩ := attachRetry_pieces (st.plan.withSchema schema) beside.fits st.pendingRetry
  have apart := attached Piece.apart (.inl rfl)
  have merged := attached Piece.merged (.inr rfl)
  refine ⟨pieces₁, ?_, ?_, ?_, fits⟩
  · obtain ⟨count, folded⟩ := ExecutionPlan.foldl_addInstr (pieces₁.flatMap Piece.apart) plan₁
    obtain ⟨count', folded'⟩ := ExecutionPlan.foldl_addInstr (pieces₁.flatMap Piece.merged) plan₁
    simp only [Compiler.finish, beside.plan, beside.retry, beside.apart, beside.merged, apart, merged, folded, folded']
  · rw [finish_instructions schema st fresh, beside.apart, apart]
  · rw [finish_instructions schema st' (beside.plan ▸ fresh), beside.plan, beside.retry, beside.merged, merged]

variable {nodes : List ASTNode} {ruleId : String} {plan : ExecutionPlan}

/-- If its emits can be merged, the merged list compiles, to a plan that is paired with that of the list. -/
theorem compile_mergeEmits (h : self.compile nodes ruleId = .ok plan) (joins : Joins (self.serviceNames nodes) none nodes)
    (jumps : JumpsFit nodes) :
    ∃ plan' pieces, self.compile (Optimizer.mergeEmits nodes) ruleId = .ok plan' ∧ Paired pieces plan plan' := by
  have table := compile_services h
  unfold compile at h ⊢
  rw [checkSchema_mergeEmits]
  cases checked : self.checkSchema nodes with
  | error e => simp only [checked, reduceCtorEq] at h
  | ok schema =>
    simp only [checked] at h ⊢
    cases loop : self.compileNodes { plan := .new ruleId } nodes with
    | error e => simp only [loop, reduceCtorEq] at h
    | ok last =>
      simp only [loop, Except.ok.injEq] at h
      subst h
      rw [(finish_frame schema last).1] at table
      have start : Beside [] { plan := .new ruleId } { plan := .new ruleId } :=
        ⟨rfl, rfl, rfl, rfl, rfl, fun _ => .inl ⟨rfl, rfl⟩, by simp⟩
      obtain ⟨pieces, last', ended, beside⟩ := Beside.mergeEmits jumps ⟨rfl, rfl⟩ (table ▸ prefix_rfl) nodes
        [] [] rfl rfl loop start rfl ⟨by simp [rowCount], 0, trivial⟩ joins
      obtain ⟨pieces₁, paired⟩ := beside.finish (compileNodes_frame loop).instructions schema
      have loop' : self.compileNodes { plan := .new ruleId } (Optimizer.mergeEmits nodes) = .ok last' := ended
      exact ⟨finish schema last', pieces₁, by simp only [loop'], paired⟩

end Compiler

end FlowRulZ
