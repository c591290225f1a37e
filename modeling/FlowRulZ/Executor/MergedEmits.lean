import FlowRulZ.Dsl.MergedCode
import FlowRulZ.Executor.Calls

/-! # Runs of merged emits

The machine on the plan of a list and the machine on the plan of the merged list keep pace: both
are at the begin of the same piece again and again, with the same context and the same calls.
-/

namespace FlowRulZ

open List

open Optimizer

/-! ## Emits one after the other -/

section

variable {caller : Caller} {body : Bytes} {entries : List ServiceEntry}

theorem emitLoop_add (count more : Nat) : ∀ {index log}, emitLoop caller body entries index (count + more) log =
    match emitLoop caller body entries index count log with
    | (.ok (), calls) => emitLoop caller body entries (index + count) more calls
    | failed => failed := by
  induction count with
  | zero =>
    intro index log
    rw [Nat.zero_add]
    rfl
  | succ count ih =>
    intro index log
    rw [Nat.add_right_comm, ← Nat.add_assoc, Nat.add_right_comm index]
    simp only [emitLoop]
    split
    · rfl
    · split
      · rfl
      · exact ih

end

/-! ## Tables of a plan -/

section

variable {host : Host} {caller : Caller} {body : Bytes} {instr : Instruction} {plan plan' : ExecutionPlan} {st : DagState}

section

variable (services : plan'.services = plan.services)
include services

theorem lastWinsEntries_tables (ids : List UInt16) : lastWinsEntries plan' st ids = lastWinsEntries plan st ids := by
  induction ids with
  | nil => rfl
  | cons id ids ih => simp only [lastWinsEntries, serviceName, services, ih]

theorem explicitMap_tables (ids : List UInt16) :
    ∀ merged, explicitMap host plan' st merged ids = explicitMap host plan st merged ids := by
  induction ids with
  | nil => exact fun _ => rfl
  | cons id ids ih =>
    intro merged
    simp only [explicitMap, serviceName, services, ih]

theorem execDag_tables (dagTables : plan'.dagTables = plan.dagTables) :
    execDag host caller body instr plan' = execDag host caller body instr plan := by
  funext log
  simp only [execDag, dagTables, mergeDagResults, lastWinsEntries_tables services, explicitMap_tables services]

end

end

namespace VM

/-! ## Running a block of code -/

section

variable {rt : Runtime} {head : Instruction} {args code more : List Instruction} {k : Nat} {vm vm' : VM}

def Holds (rt : Runtime) (k : Nat) (code : List Instruction) : Prop := code <+: rt.plan.instructions.drop k

theorem Holds.first (holds : Holds rt k (code ++ more)) : Holds rt k code := (prefix_append code more).trans holds

theorem Holds.second (holds : Holds rt k (code ++ more)) : Holds rt (k + code.length) more := by
  obtain ⟨rest, split⟩ := holds
  rw [Holds, ← drop_drop, ← split, append_assoc, drop_left]
  exact prefix_append _ _

theorem Holds.getElem? (holds : Holds rt k code) {i : Nat} (inside : i < code.length) :
    rt.plan.instructions[k + i]? = some (code.get ⟨i, inside⟩) := by
  obtain ⟨rest, split⟩ := holds
  rw [← getElem?_drop, ← split, getElem?_append_left inside]
  simp

section

variable (holds : Holds rt k (head :: args))
include holds

theorem Holds.instr : rt.plan.instructions[k]? = some head :=
  holds.getElem? (Nat.zero_lt_succ _)

theorem Holds.pass (isArg : ∀ arg ∈ args, arg.op.isArg = true) (vm : VM) :
    (runLoop rt).Reaches (vm.setIp (k + 1)) (vm.setIp (k + (head :: args).length)) := by
  have quiet : Quiet rt fun _ => ([] : List Unit) := fun _ _ _ _ => rfl
  have filled : ∀ i, k + 1 ≤ i → i < k + (head :: args).length →
      ∃ arg, rt.plan.instructions[i]? = some arg ∧ arg.op.isArg = true := by
    intro i low high
    rw [length_cons] at high
    obtain ⟨j, rfl⟩ : ∃ j, i = k + (j + 1) := ⟨i - k - 1, by omega⟩
    have inside : j < args.length := by omega
    exact ⟨_, holds.getElem? (Nat.succ_lt_succ inside), isArg _ (getElem_mem inside)⟩
  have path : ((runLoop rt).recording fun _ => ([] : List Unit)).Reaches (vm.setIp (k + 1), [])
      (vm.setIp (k + (head :: args).length), []) := args_reach quiet (by simp) filled
  exact path.of_recording

theorem Holds.runs (isArg : ∀ arg ∈ args, arg.op.isArg = true)
    (dispatched : dispatch rt head (vm.setIp (k + 1)) = (vm'.setIp (k + 1), .ok ())) :
    Relation.TransGen (runLoop rt).Step (vm.setIp k) (vm'.setIp (k + (head :: args).length)) :=
  .head' (runLoop_step.mpr ⟨head, holds.instr, dispatched⟩) (holds.pass isArg vm')

theorem Holds.halts {e : Fault String} (failed : dispatch rt head (vm.setIp (k + 1)) = (vm', .error e)) :
    (runLoop rt).Halts (vm.setIp k) (vm', .error e) :=
  ⟨_, .refl, runLoop_halt.mpr (.inr ⟨head, vm', e, holds.instr, failed, rfl⟩)⟩

end

theorem dispatch_emit {ids : List UInt16} {vm : VM} {calls : List Call} {result : Except (Fault String) Unit}
    (ran : emitLoop rt.caller vm.ctx.body rt.plan.services.rows (ids.headD 0).toNat (emitCount ids.length) vm.calls =
      (result, calls)) :
    dispatch rt (.emit (UInt8.ofNat ids.length) (ids.headD 0)) vm = (vm.setCalls calls, result) := by
  have count : (UInt8.ofNat ids.length).toUInt16.toUInt8.toNat = emitCount ids.length := by simp [emitCount]
  simp only [dispatch, opEmit, execEmit, Instruction.emit, count, ran]

def emitAll (rt : Runtime) (row : Nat) (runs : List (List UInt16)) (vm : VM) : Except (Fault String) Unit × List Call :=
  emitLoop rt.caller vm.ctx.body rt.plan.services.rows row (rowCount runs) vm.calls

theorem emits_run (runs : List (List UInt16)) : ∀ (vm : VM) {k row : Nat} {calls : List Call},
    Holds rt k (runs.flatMap emitCode) → RowsFollow row runs →
    (emitAll rt row runs vm = (.ok (), calls) →
      (runLoop rt).Reaches (vm.setIp k) ((vm.setCalls calls).setIp (k + (runs.flatMap emitCode).length))) ∧
    ∀ e, emitAll rt row runs vm = (.error e, calls) →
      ∃ ip, (runLoop rt).Halts (vm.setIp k) ((vm.setCalls calls).setIp ip, .error e) := by
  induction runs with
  | nil =>
    intro vm k row calls _ _
    refine ⟨fun passed => ?_, fun e failed => ?_⟩
    · cases passed
      exact .refl
    · cases failed
  | cons ids runs ih =>
    intro vm k row calls holds follow
    obtain ⟨-, rfl, later⟩ := follow
    have isArg : ∀ arg ∈ ids.map Instruction.svcArg, arg.op.isArg = true := by
      simp [Instruction.svcArg, OpCode.isArg]
    have total : rowCount (ids :: runs) = emitCount ids.length + rowCount runs := rfl
    rw [emitAll, total]
    rcases one : emitLoop rt.caller vm.ctx.body rt.plan.services.rows (ids.headD 0).toNat (emitCount ids.length)
      vm.calls with ⟨e | _, mid⟩
    · have stopped : dispatch rt _ (vm.setIp (k + 1)) = ((vm.setIp (k + 1)).setCalls mid, .error e) := dispatch_emit one
      rw [emitLoop_add, one]
      refine ⟨fun passed => ?_, fun e' failed => ?_⟩
      · cases passed
      · cases failed
        exact ⟨k + 1, holds.first.halts stopped⟩
    · have passed : dispatch rt _ (vm.setIp (k + 1)) = ((vm.setCalls mid).setIp (k + 1), .ok ()) := dispatch_emit one
      have path := (holds.first.runs isArg passed).to_reflTransGen
      rw [emitLoop_add, one]
      obtain ⟨onward, halts⟩ := ih (vm.setCalls mid) holds.second later
      refine ⟨fun more => ?_, fun e failed => ?_⟩
      · have reached := path.trans (onward more)
        rwa [flatMap_cons, length_append, ← Nat.add_assoc]
      · obtain ⟨ip, ended⟩ := halts e failed
        exact ⟨ip, ended.before path⟩

end

/-! ## Instructions in two plans with the same tables -/

section

variable {rt : Runtime} {plan' : ExecutionPlan} {pieces : List Piece} {instr : Instruction}

/-- An instruction that does not move the pointer does the same in any plan with these tables. -/
theorem dispatch_paired (paired : Compiler.Paired pieces rt.plan plan') (notDrop : instr.op ≠ .drop)
    (notGate : instr.op ≠ .gate) (notJmp : instr.op ≠ .jmp) (vm : VM) :
    dispatch { rt with plan := plan' } instr vm = dispatch rt instr vm := by
  obtain ⟨instructions, count, score, rfl⟩ : ∃ instructions count score, plan' = { rt.plan with
      instructions := instructions, instrCount := count, complexityScore := score } := ⟨_, _, _, paired.tables⟩
  cases op : instr.op with
  | gate => exact absurd op notGate
  | drop => exact absurd op notDrop
  | jmp => exact absurd op notJmp
  | dag =>
    have same : ∀ body, execDag rt.host rt.caller body instr { rt.plan with
        instructions := instructions, instrCount := count, complexityScore := score } =
          execDag rt.host rt.caller body instr rt.plan := fun body => execDag_tables rfl rfl
    simp only [dispatch, op, opDag, same]
  | _ => simp only [dispatch, op] <;> rfl

end

/-! ## Steps of one machine -/

section

variable {pieces rest : List Piece} {piece : Piece} {code : Piece → List Instruction} {n : Nat}

def stops : Piece → Bool
  | .plain head _ => head.op.isStop
  | _ => false

theorem stops_iff (either : OneOf code) (fits : piece.Fits pieces) :
    (stops piece = true ∧ ∃ head args, code piece = head :: args ∧ head.op.isStop = true) ∨
      (stops piece = false ∧ ∀ instr ∈ code piece, instr.op.isStop = false) := by
  rcases fits.kind either with ⟨head, args, rfl⟩ | ⟨-, ops⟩
  · rw [either.plain]
    cases stop : head.op.isStop with
    | true => exact .inl ⟨stop, head, args, rfl, stop⟩
    | false =>
      refine .inr ⟨stop, fun instr inside => ?_⟩
      rcases mem_cons.mp inside with rfl | arg
      · exact stop
      · exact isStop_of_isArg (fits.2.1 instr arg)
  · have passes : ∀ instr ∈ code piece, instr.op.isStop = false := by
      intro instr inside
      rcases ops instr inside with op | op | op | op <;> simp [op, OpCode.isStop]
    refine .inr ⟨?_, passes⟩
    cases piece with
    | plain head args => exact passes head (by simp [either.plain])
    | _ => rfl

/-- The scan of a false gate ends at the next piece that stops it, in both plans. -/
theorem scan_pieces (either : OneOf code) (fits : ∀ piece ∈ rest, piece.Fits pieces) :
    ((rest.flatMap code).takeWhile fun instr => !instr.op.isStop).length =
      startOf code rest (rest.takeWhile fun piece => !stops piece).length := by
  induction rest with
  | nil => rfl
  | cons piece rest ih =>
    have later := ih fun piece inside => fits piece (mem_cons_of_mem _ inside)
    rcases stops_iff either (fits piece mem_cons_self) with ⟨stop, head, args, split, first⟩ | ⟨passes, all⟩
    · simp [split, first, stop, startOf]
    · rw [flatMap_cons, takeWhile_append_of_pos (by simpa using all),
        takeWhile_cons_of_pos (by simp [passes]), length_append, length_cons, later, Nat.add_comm _ 1, startOf_add]
      simp [startOf]

structure Coded (rt : Runtime) (code : Piece → List Instruction) (pieces : List Piece) : Prop where
  instructions : rt.plan.instructions = pieces.flatMap code
  either : OneOf code
  fits : ∀ piece ∈ pieces, piece.Fits pieces

variable {rt : Runtime} {vm vm' : VM}

section

variable (coded : Coded rt code pieces)
include coded

theorem Coded.holds (here : pieces[n]? = some piece) : Holds rt (startOf code pieces n) (code piece) := by
  obtain ⟨inside, rfl⟩ := List.getElem?_eq_some_iff.mp here
  rw [Holds, coded.instructions, drop_startOf, drop_eq_getElem_cons inside]
  exact prefix_append _ _

theorem Coded.landing {k : Nat} (next : k + 2 = startOf code pieces n) : k + 1 + skipCount rt.plan (k + 1) =
      startOf code pieces (n + ((pieces.drop n).takeWhile fun piece => !stops piece).length) := by
  have fits : ∀ piece ∈ pieces.drop n, piece.Fits pieces :=
    fun piece inside => coded.fits piece (mem_of_mem_drop inside)
  rw [skipCount, show k + 1 + 1 = startOf code pieces n from next, coded.instructions, drop_startOf,
    scan_pieces coded.either fits, startOf_add]
  omega

theorem Coded.inside (inside : n < pieces.length) : startOf code pieces n < rt.plan.instructions.length := by
  have here : pieces[n]? = some pieces[n] := getElem?_eq_getElem inside
  have some : 0 < (code pieces[n]).length := by
    apply length_pos_of_ne_nil
    rcases (coded.fits _ (getElem_mem inside)).kind coded.either with ⟨head, args, plain⟩ | ⟨some, -⟩
    · rw [plain, coded.either.plain]
      exact cons_ne_nil _ _
    · exact some
  have rest := startOf_add code pieces (n + 1) (pieces.length - (n + 1))
  rw [show n + 1 + (pieces.length - (n + 1)) = pieces.length from by omega, startOf_length, startOf_succ here] at rest
  rw [coded.instructions]
  omega

theorem Coded.ends (vm : VM) : (runLoop rt).Halts (vm.setIp (startOf code pieces pieces.length))
      (vm.setIp (startOf code pieces pieces.length), .ok ()) := by
  refine ⟨_, .refl, runLoop_halt.mpr (.inl ⟨?_, rfl⟩)⟩
  apply getElem?_eq_none
  rw [coded.instructions, ← startOf_length]
  exact le_rfl

end

theorem transGen_of_moved {i j : Nat} (path : (runLoop rt).Reaches (vm.setIp i) (vm'.setIp j)) (moved : i < j) :
    Relation.TransGen (runLoop rt).Step (vm.setIp i) (vm'.setIp j) := by
  rcases Relation.reflTransGen_iff_eq_or_transGen.mp path with same | path
  · have places : j = i := congrArg (fun vm : VM => vm.ctx.ip) same
    omega
  · exact path

variable {args : List Instruction}

theorem Coded.gate (coded : Coded rt code pieces) {head : Instruction} {passes : Bool}
    (here : pieces[n]? = some (.plain head args)) (gate : head.op = .gate)
    (tells : evaluate rt.host vm.ctx.body head rt.plan = some passes) :
    Relation.TransGen (runLoop rt).Step (vm.setIp (startOf code pieces n)) (vm.setIp (startOf code pieces
      (n + 1 + if passes then 0 else ((pieces.drop (n + 1)).takeWhile fun piece => !stops piece).length))) := by
  have fits := coded.fits _ (mem_of_getElem? here)
  have holds := coded.holds here
  have next : startOf code pieces (n + 1) = _ := startOf_succ here
  rw [coded.either.plain] at holds next
  cases passes with
  | true =>
    rw [if_pos rfl, next]
    exact holds.runs fits.2.1 (dispatch_gate gate tells)
  | false =>
    have two : startOf code pieces n + 2 = startOf code pieces (n + 1) := by
      rw [next, length_cons, fits.2.2 gate]
    rw [if_neg Bool.false_ne_true, ← coded.landing two]
    exact .single (runLoop_step.mpr ⟨head, holds.instr, dispatch_gate gate tells⟩)

theorem Coded.drop (coded : Coded rt code pieces) {head : Instruction}
    (here : pieces[n]? = some (.plain head args)) (drop : head.op = .drop) :
    (runLoop rt).Step (vm.setIp (startOf code pieces n)) (vm.setIp (startOf code pieces pieces.length)) := by
  have holds := coded.holds here
  rw [coded.either.plain] at holds
  refine runLoop_step.mpr ⟨head, holds.instr, ?_⟩
  simp only [dispatch, drop, opDrop, coded.instructions, startOf_length]
  rfl

theorem Coded.jump (coded : Coded rt code pieces) {target : UInt16} {m : Nat}
    (holds : Holds rt (startOf code pieces n) (.jmp target :: args)) (inside : m < pieces.length)
    (goes : target.toNat = startOf code pieces m) :
    (runLoop rt).Step (vm.setIp (startOf code pieces n)) (vm.setIp (startOf code pieces m)) := by
  refine runLoop_step.mpr ⟨.jmp target, holds.instr, ?_⟩
  have bound := coded.inside inside
  simp only [dispatch, Instruction.jmp, opJmp, goes]
  rw [if_neg (by omega)]
  rfl

end

/-! ## The two machines keep pace -/

def Level (pieces : List Piece) (vm vm' : VM) : Prop :=
  ∃ n ≤ pieces.length, ∃ now : VM, vm = now.setIp (startOf Piece.apart pieces n) ∧
    vm' = now.setIp (startOf Piece.merged pieces n)

/-- Results that differ in the pointer only. -/
def SameEnd (result result' : Outcome) : Prop :=
  result'.2 = result.2 ∧ ∃ (now : VM) (ip ip' : Nat), result.1 = now.setIp ip ∧ result'.1 = now.setIp ip'

section

variable {rt : Runtime} {plan' : ExecutionPlan} {pieces : List Piece} {n : Nat}

def Proceeds (rt rt' : Runtime) (pieces : List Piece) (vm vm' : VM) : Prop :=
  (∃ r r', (runLoop rt).Halts vm r ∧ (runLoop rt').Halts vm' r' ∧ SameEnd r r') ∨
    ∃ s s', Relation.TransGen (runLoop rt).Step vm s ∧ Relation.TransGen (runLoop rt').Step vm' s' ∧ Level pieces s s'

section

variable (paired : Compiler.Paired pieces rt.plan plan')
include paired

theorem proceeds_plain (coded : Coded rt Piece.apart pieces) (coded' : Coded { rt with plan := plan' } Piece.merged pieces)
    {head : Instruction} {args : List Instruction} (here : pieces[n]? = some (.plain head args)) (now : VM) :
    Proceeds rt { rt with plan := plan' } pieces
      (now.setIp (startOf Piece.apart pieces n)) (now.setIp (startOf Piece.merged pieces n)) := by
  have inside : n < pieces.length := (List.getElem?_eq_some_iff.mp here).1
  have fits := coded.fits _ (mem_of_getElem? here)
  have holds : Holds _ _ (head :: args) := coded.holds here
  have holds' : Holds _ _ (head :: args) := coded'.holds here
  by_cases gate : head.op = .gate
  · have tells' : evaluate rt.host now.ctx.body head plan' = evaluate rt.host now.ctx.body head rt.plan := by
      rw [paired.tables]
      rfl
    cases tells : evaluate rt.host now.ctx.body head rt.plan with
    | none =>
      have fails {rt : Runtime} (k : Nat) (tells : evaluate rt.host now.ctx.body head rt.plan = none) :
          dispatch rt head (now.setIp k) = (now.setIp k, .error .panic) := dispatch_gate gate tells
      exact .inl ⟨_, _, holds.halts (fails _ tells), holds'.halts (fails _ (tells'.trans tells)), rfl, now, _, _, rfl, rfl⟩
    | some passes =>
      refine .inr ⟨_, _, coded.gate here gate tells, coded'.gate here gate (tells'.trans tells), _, ?_, now, rfl, rfl⟩
      have few := (takeWhile_sublist (fun piece => !stops piece) (l := pieces.drop (n + 1))).length_le
      rw [length_drop] at few
      split <;> omega
  by_cases drop : head.op = .drop
  · exact .inr ⟨_, _, .single (coded.drop here drop), .single (coded'.drop here drop), _, le_rfl, now, rfl, rfl⟩
  · have anywhere {rt : Runtime} {after result} (done : dispatch rt head now = (after, result)) (k : Nat) :
        dispatch rt head (now.setIp k) = (after.setIp k, result) := by
      rw [dispatch_setIp _ gate drop fits.1, done]
    have same := dispatch_paired paired drop gate fits.1 now
    rcases done : dispatch rt head now with ⟨after, e | _⟩
    · exact .inl ⟨_, _, holds.halts (anywhere done _), holds'.halts (anywhere (same.trans done) _), rfl, after, _, _, rfl,
        rfl⟩
    · refine .inr ⟨_, _, holds.runs fits.2.1 (anywhere done _), holds'.runs fits.2.1 (anywhere (same.trans done) _),
        n + 1, inside, after, ?_, ?_⟩
      · rw [startOf_succ here]
        rfl
      · rw [startOf_succ here]
        rfl

theorem proceeds_emits (coded : Coded rt Piece.apart pieces) (coded' : Coded { rt with plan := plan' } Piece.merged pieces)
    {runs : List (List UInt16)} (here : pieces[n]? = some (.emits runs)) (now : VM) :
    Proceeds rt { rt with plan := plan' } pieces
      (now.setIp (startOf Piece.apart pieces n)) (now.setIp (startOf Piece.merged pieces n)) := by
  have inside : n < pieces.length := (List.getElem?_eq_some_iff.mp here).1
  obtain ⟨some, small, row, follow⟩ := coded.fits _ (mem_of_getElem? here)
  have follow' : RowsFollow row [runs.flatten] := by
    obtain ⟨first, more, rfl⟩ := exists_cons_of_ne_nil some
    obtain ⟨firstSome, start, -⟩ := follow
    cases first with
    | nil => exact absurd rfl firstSome
    | cons id first => exact ⟨by simp, start, trivial⟩
  have holds : Holds _ _ (runs.flatMap emitCode) := coded.holds here
  have whole : (Piece.emits runs).merged = [runs.flatten].flatMap emitCode := by rw [flatMap_singleton, Piece.merged]
  have holds' := coded'.holds here
  have next : startOf Piece.apart pieces (n + 1) = _ + (runs.flatMap emitCode).length := startOf_succ here
  have next' : startOf Piece.merged pieces (n + 1) = _ := startOf_succ here
  rw [whole] at holds' next'
  have same : emitAll { rt with plan := plan' } row [runs.flatten] now = emitAll rt row runs now := by
    have count : rowCount [runs.flatten] = rowCount runs := emitCount_flatten small
    rw [emitAll, emitAll, count, paired.tables]
  rcases ran : emitAll rt row runs now with ⟨e | _, calls⟩
  · obtain ⟨ip, halts⟩ := (emits_run runs now holds follow).2 e ran
    obtain ⟨ip', halts'⟩ := (emits_run _ now holds' follow').2 e (same.trans ran)
    exact .inl ⟨_, _, halts, halts', rfl, now.setCalls calls, ip, ip', rfl, rfl⟩
  · have path := (emits_run runs now holds follow).1 ran
    have path' := (emits_run _ now holds' follow').1 (same.trans ran)
    rw [← next] at path
    rw [← next'] at path'
    have positive := length_pos_of_ne_nil some
    refine .inr ⟨_, _, transGen_of_moved path ?_, transGen_of_moved path' ?_, n + 1, inside, now.setCalls calls, rfl, rfl⟩
    · rw [next, apart_emits_length]
      omega
    · rw [next', apart_emits_length, length_singleton]
      omega

theorem paired_paces : Machine.Paces (runLoop rt) (runLoop { rt with plan := plan' }) (Level pieces) SameEnd := by
  have coded : Coded rt Piece.apart pieces := ⟨paired.apart, .inl rfl, paired.fits⟩
  have coded' : Coded { rt with plan := plan' } Piece.merged pieces := ⟨paired.merged, .inr rfl, paired.fits⟩
  rintro vm vm' ⟨n, inside, now, rfl, rfl⟩
  cases here : pieces[n]? with
  | none =>
    obtain rfl : n = pieces.length := Nat.le_antisymm inside (getElem?_eq_none_iff.mp here)
    exact .inl ⟨_, _, coded.ends now, coded'.ends now, rfl, now, _, _, rfl, rfl⟩
  | some piece =>
    cases piece with
    | plain head args => exact proceeds_plain paired coded coded' here now
    | emits runs => exact proceeds_emits paired coded coded' here now
    | jump merged apart =>
      obtain ⟨m, target, goes', goes⟩ := coded.fits _ (mem_of_getElem? here)
      exact .inr ⟨_, _, .single (coded.jump (coded.holds here) target goes),
        .single (coded'.jump (coded'.holds here) target goes'), m, target.le, now, rfl, rfl⟩

end

end

/-! ## Merging emits -/

def Ends (rt : Runtime) (ctx : ExecutionContext) (vm : VM) (result : Except (Fault String) Unit) : Prop :=
  ∃ ip, Runs rt ctx (vm.setIp ip, result)

/-- Whatever the services answer, both plans make the same calls of the same services, and end alike. -/
def SameRuns (plan plan' : ExecutionPlan) : Prop :=
  plan'.services = plan.services ∧ ∀ host scheduler caller ctx,
    (∀ calls, Makes ⟨host, scheduler, plan, caller⟩ ctx calls ↔ Makes ⟨host, scheduler, plan', caller⟩ ctx calls) ∧
    ∀ vm result, Ends ⟨host, scheduler, plan, caller⟩ ctx vm result ↔ Ends ⟨host, scheduler, plan', caller⟩ ctx vm result

theorem SameEnd.setIp {vm : VM} {ip : Nat} {result : Except (Fault String) Unit} {r : Outcome}
    (same : SameEnd (vm.setIp ip, result) r) : ∃ ip', r = (vm.setIp ip', result) := by
  obtain ⟨equal, now, i, j, left, right⟩ := same
  have moved : (vm.setIp ip).setIp j = (now.setIp i).setIp j := congrArg (fun vm : VM => vm.setIp j) left
  exact ⟨j, Prod.ext (right.trans moved.symm) equal⟩

theorem SameEnd.symm {r r' : Outcome} (same : SameEnd r r') : SameEnd r' r := by
  obtain ⟨equal, now, ip, ip', left, right⟩ := same
  exact ⟨equal.symm, now, ip', ip, right, left⟩

theorem SameEnd.calls {r r' : Outcome} (same : SameEnd r r') : r.1.calls = r'.1.calls := by
  obtain ⟨-, now, ip, ip', left, right⟩ := same
  rw [left, right]
  rfl

theorem sameRuns_of_paired {plan plan' : ExecutionPlan} {pieces : List Piece}
    (paired : Compiler.Paired pieces plan plan') : SameRuns plan plan' := by
  refine ⟨by rw [paired.tables], fun host scheduler caller ctx => ?_⟩
  have paces := @paired_paces ⟨host, scheduler, plan, caller⟩ plan' pieces paired
  have start : Level pieces (init ctx) (init ctx) := ⟨0, Nat.zero_le _, init ctx, rfl, rfl⟩
  have level : ∀ s t, Level pieces s t → s.calls = t.calls := by
    rintro s t ⟨n, -, now, rfl, rfl⟩
    rfl
  constructor
  · intro calls
    constructor
    · exact paces.shows level (fun _ _ => SameEnd.calls) (fun _ _ => step_adds) (fun _ _ => halt_adds) start
    · exact paces.symm.shows (fun s t related => (level t s related).symm) (fun _ _ same => same.calls.symm)
        (fun _ _ => step_adds) (fun _ _ => halt_adds) start
  · intro vm result
    constructor
    · rintro ⟨ip, halts⟩
      obtain ⟨r, halts', same⟩ := paces.halts start halts
      obtain ⟨ip', rfl⟩ := same.setIp
      exact ⟨ip', halts'⟩
    · rintro ⟨ip, halts⟩
      obtain ⟨r, halts', same⟩ := paces.symm.halts start halts
      obtain ⟨ip', rfl⟩ := same.symm.setIp
      exact ⟨ip', halts'⟩

open Compiler

/-- Merging neighbouring emits changes neither the calls nor how a run ends, if the rows of each emit follow those of
the ones it is merged with. -/
theorem mergeEmits_runs {self : Compiler} {nodes : List ASTNode} {ruleId : String} {plan : ExecutionPlan}
    (h : self.compile nodes ruleId = .ok plan) (joins : Joins (self.serviceNames nodes) none nodes)
    (jumps : JumpsFit nodes) :
    ∃ plan', self.compile (mergeEmits nodes) ruleId = .ok plan' ∧ SameRuns plan plan' := by
  obtain ⟨plan', pieces, compiled, paired⟩ := compile_mergeEmits h joins jumps
  exact ⟨plan', compiled, sameRuns_of_paired paired⟩

def loopedEmits : List ASTNode :=
  [.next "a", .label "l", .emit ["a", "b"], .emit ["c"], .gate "x" "==" "1", .jmp "l"]

theorem mergeEmits_runs_looped :
    mergeEmits loopedEmits = [.next "a", .label "l", .emit ["a", "b", "c"], .gate "x" "==" "1", .jmp "l"] ∧
      ∃ plan', Compiler.ascii.compile (mergeEmits loopedEmits) "r" = .ok plan' ∧
        SameRuns (Compiler.ascii.planOf loopedEmits "r") plan' := by
  have compiled : ascii.compile loopedEmits "r" = .ok (ascii.planOf loopedEmits "r") := rfl
  have names : ascii.serviceNames loopedEmits = ["a", "b", "c"] := rfl
  have adjoins : ∀ before ∈ some ["a", "b"], Adjoins ["a", "b", "c"] before ["c"] := by
    intro before same
    cases same
    exact ⟨by decide, by decide⟩
  have joins : Joins (ascii.serviceNames loopedEmits) none loopedEmits := by
    exact ⟨by simp, adjoins, trivial⟩
  have jumps : JumpsFit loopedEmits := by
    intro pre target post split pre' post' labelled
    have short : codeLen pre' ≤ codeLen loopedEmits := by
      rw [split, labelled]
      simp
    have size : codeLen loopedEmits = 11 := rfl
    omega
  exact ⟨rfl, mergeEmits_runs compiled joins jumps⟩

def obliging : Caller := fun _ _ => .ok []

/-- Emits of `a` and of `c` merge to an emit of `a` and of the row behind it, which is `b`. Emits of `a` and of `b`
merge to one that runs past the table if `b` was entered first. -/
theorem mergeEmits_changes :
    (∃ plan plan', Compiler.ascii.compile [.next "a", .next "b", .next "c", .emit ["a"], .emit ["c"]] "r" = .ok plan ∧
      Compiler.ascii.compile (mergeEmits [.next "a", .next "b", .next "c", .emit ["a"], .emit ["c"]]) "r" = .ok plan' ∧
      ¬ SameRuns plan plan' ∧
      Runs ⟨.mute, .inOrder, plan, obliging⟩ (.fromBody []) (⟨⟨[], false, [], 3, 7⟩,
        [⟨0, [], 0⟩, ⟨1, [], 0⟩, ⟨2, [], 0⟩, ⟨0, [], 0⟩, ⟨2, [], 0⟩]⟩, .ok ()) ∧
      Runs ⟨.mute, .inOrder, plan', obliging⟩ (.fromBody []) (⟨⟨[], false, [], 3, 6⟩,
        [⟨0, [], 0⟩, ⟨1, [], 0⟩, ⟨2, [], 0⟩, ⟨0, [], 0⟩, ⟨1, [], 0⟩]⟩, .ok ())) ∧
    ∃ plan plan', Compiler.ascii.compile [.next "b", .emit ["a"], .emit ["b"]] "r" = .ok plan ∧
      Compiler.ascii.compile (mergeEmits [.next "b", .emit ["a"], .emit ["b"]]) "r" = .ok plan' ∧
      Runs ⟨.mute, .inOrder, plan, obliging⟩ (.fromBody [])
        (⟨⟨[], false, [], 1, 5⟩, [⟨0, [], 0⟩, ⟨1, [], 0⟩, ⟨0, [], 0⟩]⟩, .ok ()) ∧
      Runs ⟨.mute, .inOrder, plan', obliging⟩ (.fromBody [])
        (⟨⟨[], false, [], 1, 2⟩, [⟨0, [], 0⟩, ⟨1, [], 0⟩]⟩, .error .panic) := by
  refine ⟨⟨_, _, rfl, rfl, fun same => ?_, Machine.exists_run_iff.mp ⟨8, rfl⟩, Machine.exists_run_iff.mp ⟨7, rfl⟩⟩,
    _, _, rfl, rfl, Machine.exists_run_iff.mp ⟨6, rfl⟩, Machine.exists_run_iff.mp ⟨3, rfl⟩⟩
  obtain ⟨ip, ended⟩ := ((same.2 .mute .inOrder obliging (.fromBody [])).2 ⟨⟨[], false, [], 3, 7⟩,
    [⟨0, [], 0⟩, ⟨1, [], 0⟩, ⟨2, [], 0⟩, ⟨0, [], 0⟩, ⟨2, [], 0⟩]⟩ (.ok ())).mp ⟨7, Machine.exists_run_iff.mp ⟨8, rfl⟩⟩
  have calls := congrArg (fun result => result.1.calls) (ended.unique (show Runs _ _ (⟨⟨[], false, [], 3, 6⟩,
    [⟨0, [], 0⟩, ⟨1, [], 0⟩, ⟨2, [], 0⟩, ⟨0, [], 0⟩, ⟨1, [], 0⟩]⟩, .ok ()) from Machine.exists_run_iff.mp ⟨7, rfl⟩))
  exact absurd calls (by simp [VM.setIp])

end VM

end FlowRulZ
