import FlowRulZ.Dsl.Grammar
import FlowRulZ.Dsl.Lexer
import FlowRulZ.Dsl.RetryTimeout

/-! # The numbers of a pipeline in its plan

The lexer reads numbers of 64 bits.  An instruction has a byte for the size of a buffer, and 32 bits
for a delay or a timeout; what is more is cut off.
-/

namespace FlowRulZ

open List Text Instruction

def Writes (front word : String) (n : Nat) : Prop :=
  ∃ digits, word = front ++ digits ∧ Text.parseUInt (2 ^ 64) digits = some n

def Calls (word : String) : Prop := ∃ token, Lexer.classify word = .ok token ∧ token.isService = true

/-- A call with `before` and `after` around it, and the last timeout written for it since the call before. -/
structure Timed (words before after : List String) (n : Nat) : Prop where
  parts : ∃ call pre word between, words = before ++ call :: after ∧ Calls call ∧
    before = pre ++ word :: between ∧ Writes "t" word n ∧
    ∀ other ∈ between, ¬ Calls other ∧ ∀ ms, Lexer.classify other ≠ .ok (.timeout ms)

/-- The plan has every number that is written, in the instruction of its word. -/
structure NumbersReach (words : List String) (nodes : List ASTNode) (plan : ExecutionPlan) : Prop where
  delays : ∀ before word after n, words = before ++ word :: after → Writes "delay:" word n →
    ∃ instr, plan.instructions[codeLen (nodes.take before.length)]? = some instr ∧
      instr.op = .delay ∧ instr.delayMs.toNat = n
  buffers : ∀ before word after n, words = before ++ word :: after → Writes "b" word n →
    ∃ instr, plan.instructions[codeLen (nodes.take before.length)]? = some instr ∧
      instr.op = .buffer ∧ instr.a.toNat = n
  timeouts : ∀ before after n, Timed words before after n →
    ∃ instr, plan.instructions[codeLen (nodes.take before.length)]? = some instr ∧
      (instr.op = .next ∨ instr.op = .async) ∧ (instr.hasRetry = false → instr.timeoutMs.toNat = n)

/-- The numbers have no more bits than the instructions have room for. A retry is on the call that is the last
instruction, if there is a retry at all. -/
structure NumbersFit (words : List String) (nodes : List ASTNode) : Prop where
  delays : ∀ word ∈ words, ∀ n, Writes "delay:" word n → n < 2 ^ 32
  buffers : ∀ word ∈ words, ∀ n, Writes "b" word n → n < 2 ^ 8
  timeouts : ∀ before after n, Timed words before after n →
    nodes.any ASTNode.isRetry = false ∨ codeLen (nodes.drop (before.length + 1)) ≠ 0 → n < 2 ^ 32

theorem parseUInt_spec {bound n : Nat} {digits : String} (read : parseUInt bound digits = some n) :
    n < bound ∧ digits.toList ≠ [] ∧ ∀ c ∈ digits.toList, c = '+' ∨ c.isDigit = true := by
  unfold parseUInt at read
  cases chars : digits.toList with
  | nil => simp [chars] at read
  | cons c rest =>
    refine ⟨?_, cons_ne_nil c rest, ?_⟩
    · grind
    · grind

theorem len_pos {s : String} (some : s.toList ≠ []) : 0 < len s := by
  obtain ⟨c, chars, whole⟩ := exists_cons_of_ne_nil some
  rw [len, whole, byteLen_cons]
  have := c.utf8Size_pos
  omega

namespace Writes

variable {front word : String} {n : Nat}

theorem small (written : Writes front word n) : n < 2 ^ 64 := by
  obtain ⟨digits, rfl, read⟩ := written
  exact (parseUInt_spec read).1

theorem read (written : Writes front word n) : n ∈ (stripPrefix word front).bind (parseUInt (2 ^ 64)) := by
  obtain ⟨digits, rfl, read⟩ := written
  rw [stripPrefix_append]
  exact read

theorem notLabel (written : Writes front word n) : endsWith word ":" = false := by
  obtain ⟨digits, rfl, read⟩ := written
  obtain ⟨-, some, chars⟩ := parseUInt_spec read
  rw [Bool.eq_false_iff]
  intro ends
  obtain ⟨other, same⟩ := endsWith_iff.mp ends
  have last := congrArg (fun s : String => s.toList.getLast?) same
  simp only [String.toList_append, getLast?_append_of_ne_nil _ some] at last
  rw [show ":".toList = [':'] from rfl, getLast?_concat] at last
  have inside := mem_of_getLast? last
  rcases chars ':' inside with plus | digit
  · cases plus
  · cases digit

theorem classify_delay (written : Writes "delay:" word n) : Lexer.classify word = .ok (.delay (UInt64.ofNat n)) := by
  obtain ⟨digits, rfl, read⟩ := written
  have chars : ("delay:" ++ digits).toList = 'd' :: ("elay:".toList ++ digits.toList) := by
    simp
  have notDag : stripPrefix ("delay:" ++ digits) "dag:" = none := by
    simp [stripPrefix, startsWith]
  simp only [Lexer.classify, chars, startsWith_cons "chunk:" chars rfl (by decide), notDag, stripPrefix_append, read]
  rfl

theorem classify_letter {c : Char} (written : Writes (String.singleton c) word n)
    (letter : c ∉ ['c', 'd', 's']) : Lexer.classify word = Lexer.byFirst word c := by
  have notLabel := written.notLabel
  obtain ⟨digits, rfl, read⟩ := written
  have chars : (String.singleton c ++ digits).toList = c :: digits.toList := by simp
  have differ : ∀ d ∈ ['c', 'd', 's'], d ≠ c := fun d inside same => letter (same ▸ inside)
  simp only [Lexer.classify, chars, startsWith_cons "chunk:" chars rfl (differ 'c' (by simp)),
    stripPrefix_cons "dag:" chars rfl (differ 'd' (by simp)),
    stripPrefix_cons "delay:" chars rfl (differ 'd' (by simp)),
    stripPrefix_cons "schema:" chars rfl (differ 's' (by simp)), notLabel]
  simp

theorem number_letter {c : Char} (written : Writes (String.singleton c) word n) (one : c.utf8Size = 1) (invalid : LexError)
    (token : UInt64 → Token) : Lexer.number word invalid token = .ok (token (UInt64.ofNat n)) := by
  obtain ⟨digits, rfl, read⟩ := written
  have cut : sliceFrom (String.singleton c ++ digits) 1 = some digits := by
    rw [← len_singleton one]
    exact sliceFrom_append _ digits
  simp only [Lexer.number, cut, Lexer.orPanic, bind, Except.bind, read]
  rfl

theorem classify_buffer (written : Writes "b" word n) : Lexer.classify word = .ok (.buffer (UInt64.ofNat n)) := by
  rw [classify_letter (c := 'b') written (by decide)]
  have long : ¬ len word < 2 := by
    obtain ⟨digits, rfl, read⟩ := written
    have positive := len_pos (parseUInt_spec read).2.1
    have one : len "b" = 1 := rfl
    rw [len_append]
    omega
  rw [Lexer.byFirst, if_neg long]
  exact number_letter (c := 'b') written rfl _ _

theorem classify_timeout (written : Writes "t" word n) : Lexer.classify word = .ok (.timeout (UInt64.ofNat n)) := by
  rw [classify_letter (c := 't') written (by decide)]
  have long : word ≠ "t" := by
    obtain ⟨digits, rfl, read⟩ := written
    intro short
    have empty : 't' :: digits.toList = ['t'] := by simpa using congrArg String.toList short
    exact (parseUInt_spec read).2.1 (List.cons.inj empty).2
  rw [Lexer.byFirst, if_neg long]
  exact number_letter (c := 't') written rfl _ _

end Writes

def ReadFrom (node : ASTNode) (word : String) : Prop :=
  ∃ token, Lexer.classify word = .ok token ∧ tokenToAst token = node

theorem readFrom_lex {input : String} {tokens : List Token} (lexed : lex input = .ok tokens) :
    List.Forall₂ ReadFrom (tokens.map tokenToAst) (splitWhitespace input) := by
  rw [List.forall₂_map_left_iff]
  exact (Traverse.mapM_eq_ok _ lexed).imp fun token word read => ⟨token, read, rfl⟩

variable {word : String}

theorem ReadFrom.eq {node : ASTNode} {token : Token} (read : ReadFrom node word)
    (classified : Lexer.classify word = .ok token) : node = tokenToAst token := by
  obtain ⟨other, found, rfl⟩ := read
  rw [Except.ok.inj (found.symm.trans classified)]

variable {nodes : List ASTNode}

theorem readFrom_split {before after : List String} (read : List.Forall₂ ReadFrom nodes (before ++ word :: after)) :
    ∃ node, nodes = nodes.take before.length ++ node :: nodes.drop (before.length + 1) ∧ ReadFrom node word ∧
      List.Forall₂ ReadFrom (nodes.take before.length) before ∧
      List.Forall₂ ReadFrom (nodes.drop (before.length + 1)) after := by
  have front := List.forall₂_take_append nodes before (word :: after) read
  have back := List.forall₂_drop_append nodes before (word :: after) read
  rw [List.forall₂_cons_right_iff] at back
  obtain ⟨node, rest, here, later, split⟩ := back
  have dropped : nodes.drop (before.length + 1) = rest := by
    rw [← drop_drop, split, drop_one, tail_cons]
  refine ⟨node, ?_, here, front, dropped ▸ later⟩
  rw [dropped, ← split, take_append_drop]

theorem timeoutInForce_idle {words : List String} (read : List.Forall₂ ReadFrom nodes words)
    (idle : ∀ other ∈ words, ¬ Calls other ∧ ∀ ms, Lexer.classify other ≠ .ok (.timeout ms)) (ms : UInt64) :
    timeoutInForce ms nodes = ms := by
  induction read with
  | nil => rfl
  | @cons node word nodes words here _ ih =>
    obtain ⟨token, classified, rfl⟩ := here
    obtain ⟨noCall, noTimeout⟩ := idle word mem_cons_self
    have kept : (if (tokenToAst token).isService then 0 else (timeoutOf (tokenToAst token)).getD ms) = ms := by
      cases token with
      | next target | async target => exact absurd ⟨_, classified, rfl⟩ noCall
      | timeout ms => exact absurd classified (noTimeout ms)
      | _ => rfl
    rw [timeoutInForce, foldl_cons, kept]
    exact ih fun other inside => idle other (mem_cons_of_mem _ inside)

theorem timeoutInForce_words {pre between : List String} {n : Nat}
    (read : List.Forall₂ ReadFrom nodes (pre ++ word :: between)) (written : Writes "t" word n)
    (idle : ∀ other ∈ between, ¬ Calls other ∧ ∀ ms, Lexer.classify other ≠ .ok (.timeout ms)) :
    timeoutInForce 0 nodes = UInt64.ofNat n := by
  obtain ⟨node, split, here, -, later⟩ := readFrom_split read
  obtain rfl := here.eq written.classify_timeout
  rw [split, timeoutInForce, foldl_append]
  exact timeoutInForce_idle later idle _

namespace Compiler

variable {self : Compiler} {st st' : State} {nodes pre post : List ASTNode} {ruleId : String} {plan : ExecutionPlan}

theorem compileNodes_anyRetry (h : self.compileNodes st nodes = .ok st') :
    st'.pendingRetry = none ↔ st.pendingRetry = none ∧ nodes.any ASTNode.isRetry = false := by
  induction nodes generalizing st with
  | nil => cases h; simp
  | cons node nodes ih =>
    obtain ⟨mid, one, rest⟩ := compileNodes_cons h
    rw [ih rest, (compileNode_step one).retry]
    cases node with
    | retry => simp [ASTNode.isRetry]
    | _ => exact Iff.rfl

theorem compile_push_at {node : ASTNode} {instr : Instruction} (h : self.compile (pre ++ node :: post) ruleId = .ok plan)
    (pushes : ∀ st, self.compileNode st node = .ok (st.push instr)) (other : instr.op ≠ .next ∧ instr.op ≠ .async) :
    plan.instructions[codeLen pre]? = some instr := by
  have emitted : ∀ st st', self.compileNode st node = .ok st' →
      st'.instructions[st.instructions.length]? = some instr := by
    intro st st' one
    obtain rfl := Except.ok.inj ((pushes st).symm.trans one)
    simp [State.push]
  obtain ⟨before, -, here⟩ := compile_head_at h emitted fun _ => other
  exact here

theorem delayMs_delay (ms : UInt64) : (delay ms).delayMs.toNat = ms.toNat % 2 ^ 32 := by
  have halves : (delay ms).timeoutMs.toNat = (hi ms).toNat * 2 ^ 16 + (lo ms).toNat := timeoutMs_toNat (.delay ms)
  have high := hi_toNat ms
  have low := lo_toNat ms
  have same : (delay ms).delayMs = (delay ms).timeoutMs := rfl
  rw [same]
  omega

variable {words before after : List String} {word : String} {n : Nat}

section

variable (read : List.Forall₂ ReadFrom nodes words) (h : self.compile nodes ruleId = .ok plan)
include read h

theorem delay_spec (split : words = before ++ word :: after) (written : Writes "delay:" word n) :
    ∃ instr, plan.instructions[codeLen (nodes.take before.length)]? = some instr ∧
      instr.op = .delay ∧ instr.delayMs.toNat = n % 2 ^ 32 := by
  obtain ⟨node, cut, here, -, -⟩ := readFrom_split (split ▸ read)
  obtain rfl := here.eq written.classify_delay
  rw [cut] at h
  refine ⟨_, compile_push_at h (fun _ => rfl) ⟨nofun, nofun⟩, rfl, ?_⟩
  rw [delayMs_delay, UInt64.toNat_ofNat_of_lt' written.small]

theorem buffer_spec (split : words = before ++ word :: after) (written : Writes "b" word n) :
    ∃ instr, plan.instructions[codeLen (nodes.take before.length)]? = some instr ∧
      instr.op = .buffer ∧ instr.a.toNat = n % 2 ^ 8 := by
  obtain ⟨node, cut, here, -, -⟩ := readFrom_split (split ▸ read)
  obtain rfl := here.eq written.classify_buffer
  rw [cut] at h
  refine ⟨_, compile_push_at h (fun _ => rfl) ⟨nofun, nofun⟩, rfl, ?_⟩
  simp only [buffer, UInt8.toNat_toUInt16, UInt64.toNat_toUInt8, UInt64.toNat_ofNat_of_lt' written.small]

theorem timeout_spec (timed : Timed words before after n) :
    ∃ instr, plan.instructions[codeLen (nodes.take before.length)]? = some instr ∧
      (instr.op = .next ∨ instr.op = .async) ∧
      (instr.hasRetry = false ↔ nodes.any ASTNode.isRetry = false ∨ codeLen (nodes.drop (before.length + 1)) ≠ 0) ∧
      (instr.hasRetry = false → instr.timeoutMs.toNat = n % 2 ^ 32) := by
  obtain ⟨call, pre, word, between, split, ⟨token, classified, isService⟩, rfl, written, idle⟩ := timed.parts
  obtain ⟨node, cut, here, front, -⟩ := readFrom_split (split ▸ read)
  obtain rfl := here.eq classified
  have service : (tokenToAst token).isService = true := by
    cases token with
    | next target | async target => rfl
    | _ => cases isService
  rw [cut] at h
  obtain ⟨last, instr, loop, found, op, retried, -, stored⟩ := compile_service_spec h service
  rw [← cut] at loop
  have inForce := timeoutInForce_words front written idle
  have pending := compileNodes_anyRetry loop
  refine ⟨instr, found, op, ?_, ?_⟩
  · rw [← Bool.not_eq_true, retried]
    simp only [true_and] at pending
    rw [not_and_or, not_not, pending]
  · intro single
    rw [stored, single, inForce, storedTimeout, UInt64.toNat_ofNat_of_lt' written.small]
    rfl

end

/-- The plan has the numbers of its pipeline unchanged if and only if they fit. -/
theorem numbersReach_iff {input : String} {tokens : List Token} (lexed : lex input = .ok tokens)
    (parsed : parse tokens = .ok nodes) (h : self.compile nodes ruleId = .ok plan) :
    NumbersReach (Text.splitWhitespace input) nodes plan ↔ NumbersFit (Text.splitWhitespace input) nodes := by
  have read : List.Forall₂ ReadFrom nodes (splitWhitespace input) := parse_nodes parsed ▸ readFrom_lex lexed
  constructor
  · intro reach
    constructor
    · intro word inside n written
      obtain ⟨before, after, split⟩ := append_of_mem inside
      obtain ⟨instr, found, -, stored⟩ := delay_spec read h split written
      obtain ⟨instr', found', -, wanted⟩ := reach.delays before word after n split written
      obtain rfl : instr = instr' := Option.some.inj (found.symm.trans found')
      omega
    · intro word inside n written
      obtain ⟨before, after, split⟩ := append_of_mem inside
      obtain ⟨instr, found, -, stored⟩ := buffer_spec read h split written
      obtain ⟨instr', found', -, wanted⟩ := reach.buffers before word after n split written
      obtain rfl : instr = instr' := Option.some.inj (found.symm.trans found')
      omega
    · intro before after n timed single
      obtain ⟨instr, found, -, retried, stored⟩ := timeout_spec read h timed
      obtain ⟨instr', found', -, wanted⟩ := reach.timeouts before after n timed
      obtain rfl : instr = instr' := Option.some.inj (found.symm.trans found')
      have noRetry := retried.mpr single
      have := wanted noRetry
      have := stored noRetry
      omega
  · intro fit
    constructor
    · intro before word after n split written
      obtain ⟨instr, found, op, stored⟩ := delay_spec read h split written
      refine ⟨instr, found, op, ?_⟩
      rw [stored, Nat.mod_eq_of_lt (fit.delays word (by simp [split]) n written)]
    · intro before word after n split written
      obtain ⟨instr, found, op, stored⟩ := buffer_spec read h split written
      refine ⟨instr, found, op, ?_⟩
      rw [stored, Nat.mod_eq_of_lt (fit.buffers word (by simp [split]) n written)]
    · intro before after n timed
      obtain ⟨instr, found, op, retried, stored⟩ := timeout_spec read h timed
      refine ⟨instr, found, op, ?_⟩
      intro noRetry
      rw [stored noRetry, Nat.mod_eq_of_lt (fit.timeouts before after n timed (retried.mp noRetry))]

theorem numbersReach_small : ∃ plan, ascii.compile [.timeout 9, .next "a", .delay 5, .buffer 3] "r" = .ok plan ∧
      NumbersReach ["t9", "n:a", "delay:5", "b3"] [.timeout 9, .next "a", .delay 5, .buffer 3] plan := by
  obtain ⟨plan, compiled⟩ : ∃ plan, ascii.compile [.timeout 9, .next "a", .delay 5, .buffer 3] "r" = .ok plan := ⟨_, rfl⟩
  have words : splitWhitespace "t9 n:a delay:5 b3" = ["t9", "n:a", "delay:5", "b3"] := by decide
  have lexed : lex "t9 n:a delay:5 b3" = .ok [.timeout 9, .next "a", .delay 5, .buffer 3] := by decide
  have reach := numbersReach_iff lexed rfl compiled
  rw [words] at reach
  have small : ∀ front ∈ ["t", "delay:", "b"], ∀ word ∈ ["t9", "n:a", "delay:5", "b3"],
      ∀ n ∈ (stripPrefix word front).bind (parseUInt (2 ^ 64)), n < 2 ^ 8 := by decide
  refine ⟨plan, compiled, reach.mpr ⟨?_, ?_, ?_⟩⟩
  · intro word inside n written
    exact (small "delay:" (by decide) word inside n written.read).trans (by decide)
  · intro word inside n written
    exact small "b" (by decide) word inside n written.read
  · intro before after n timed _
    obtain ⟨call, pre, word, between, split, -, rfl, written, -⟩ := timed.parts
    exact (small "t" (by decide) word (by simp [split]) n written.read).trans (by decide)

/-- Numbers of more bits: the delay and the buffer are 0, and the timeout is 1. -/
theorem numbersReach_cut :
    lex "delay:4294967296 t4294967297 n:a b256" = .ok [.delay 4294967296, .timeout 4294967297, .next "a", .buffer 256] ∧
    parse [.delay 4294967296, .timeout 4294967297, .next "a", .buffer 256] =
      .ok [.delay 4294967296, .timeout 4294967297, .next "a", .buffer 256] ∧
    ∃ plan, ascii.compile [.delay 4294967296, .timeout 4294967297, .next "a", .buffer 256] "r" = .ok plan ∧
      plan.instructions.map (·.op) = [.delay, .next, .buffer] ∧
      plan.instructions.map (·.delayMs) = [0, 1, 0] ∧ plan.instructions.map (·.a) = [0, 0, 0] ∧
      ¬ NumbersReach (Text.splitWhitespace "delay:4294967296 t4294967297 n:a b256")
        [.delay 4294967296, .timeout 4294967297, .next "a", .buffer 256] plan := by
  refine ⟨by decide, rfl, _, rfl, rfl, rfl, rfl, ?_⟩
  intro reach
  have words : splitWhitespace "delay:4294967296 t4294967297 n:a b256" =
      ["delay:4294967296", "t4294967297", "n:a", "b256"] := by decide
  have written : Writes "b" "b256" 256 := ⟨"256", by decide, by decide⟩
  obtain ⟨instr, found, -, stored⟩ := reach.buffers ["delay:4294967296", "t4294967297", "n:a"] "b256" [] 256 words written
  cases found
  cases stored

end Compiler

end FlowRulZ
