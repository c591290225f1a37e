import FlowRulZ.Dsl.Parser
import FlowRulZ.Lib.Latch

/-! # The rules of the parser

`parse` decides with four flags and a look at the node before.  The flags are latches on the
tokens read so far, so what it accepts can be said without them.
-/

namespace FlowRulZ

namespace Token

@[simp]
def isService : Token → Bool
  | .next _ | .async _ => true
  | _ => false

@[simp]
def isParallel : Token → Bool
  | .parallel _ => true
  | _ => false

@[simp]
def isCollect : Token → Bool
  | .collect => true
  | _ => false

@[simp]
def isTimeout : Token → Bool
  | .timeout _ => true
  | _ => false

/-- After such a token there may be another timeout. -/
@[simp]
def renews : Token → Bool
  | .next _ | .async _ | .parallel _ | .collect | .fallback _ | .emit _ | .drop | .chunk .. | .retry .. => true
  | _ => false

end Token

structure WellFormed (tokens : List Token) : Prop where
  nonempty : tokens ≠ []
  retries : ∀ before count strategy fixedMs after,
    tokens = before ++ .retry count strategy fixedMs :: after →
      ∃ earlier service, before = earlier ++ [service] ∧ service.isService = true
  collects : ∀ before after, tokens = before ++ .collect :: after →
    ∃ earlier targets between, before = earlier ++ .parallel targets :: between ∧ .collect ∉ between
  timeouts : ∀ before ms between ms' after,
    tokens = before ++ .timeout ms :: (between ++ .timeout ms' :: after) → ∃ token ∈ between, token.renews = true

namespace Parser

/-- What the variables of the loop say about the tokens read so far. -/
structure Reading (seen : List Token) (st : State) : Prop where
  nodes : st.nodes = seen.map tokenToAst
  timeout : st.hasTimeout = Latch.after Token.isTimeout Token.renews seen
  collect : st.pendingCollect = Latch.after Token.isParallel Token.isCollect seen
  idle : st.hasTimeout = true → st.lastWasService = false
  service : ∀ last ∈ seen.getLast?, last.isService = true → st.lastWasService = true ∧ st.lastWasRetry = false
  /-- What counts as a service is one, or refuses every retry after it. -/
  called : st.lastWasService = true → ∃ last, seen.getLast? = some last ∧
    (last.isService = true ∨ ∀ retry, ∃ e, retryAfter retry (some (tokenToAst last)) = .error e)

def Allowed (seen : List Token) : Token → Prop
  | .retry .. => ∃ last, seen.getLast? = some last ∧ last.isService = true
  | .collect => Latch.after Token.isParallel Token.isCollect seen = true
  | .timeout _ => Latch.after Token.isTimeout Token.renews seen = false
  | _ => True

def Round (seen : List Token) (st : State) (token : Token) : Prop :=
  (Allowed seen token ∧ ∃ st', step st token = .ok st' ∧ Reading (seen ++ [token]) st') ∨
    (¬ Allowed seen token ∧ ∃ e, step st token = .error e)

section

variable {seen : List Token} {st : State}

/-- A token is read: what the flags say about the tokens before it is brought up to date. -/
theorem Reading.concat (reading : Reading seen st) {token : Token} {st' : State}
    (nodes : st'.nodes = st.nodes ++ [tokenToAst token])
    (timeout : st'.hasTimeout = Latch.touch Token.isTimeout Token.renews st.hasTimeout token)
    (collect : st'.pendingCollect = Latch.touch Token.isParallel Token.isCollect st.pendingCollect token)
    (idle : st'.hasTimeout = true → st'.lastWasService = false)
    (service : token.isService = true → st'.lastWasService = true ∧ st'.lastWasRetry = false)
    (called : st'.lastWasService = true → token.isService = true ∨
      ∀ retry, ∃ e, retryAfter retry (some (tokenToAst token)) = .error e) :
    Reading (seen ++ [token]) st' where
  nodes := by simp [nodes, reading.nodes]
  timeout := by rw [timeout, reading.timeout, Latch.after_concat]
  collect := by rw [collect, reading.collect, Latch.after_concat]
  idle := idle
  service := by simpa using service
  called := by simpa using called

theorem retryAfter_service {retry : ASTNode} {last : Token} (service : last.isService = true) :
    retryAfter retry (some (tokenToAst last)) = .ok () := by
  cases last with
  | next target | async target => rfl
  | _ => cases service

section

variable (reading : Reading seen st)
include reading

theorem Reading.retry (count : UInt8) (strategy : Option String)
    (fixedMs : Option UInt32) : Round seen st (.retry count strategy fixedMs) := by
  have before : st.nodes.getLast? = seen.getLast?.map tokenToAst := by
    rw [reading.nodes, List.getLast?_map]
  by_cases allowed : Allowed seen (.retry count strategy fixedMs)
  · obtain ⟨last, found, service⟩ := allowed
    obtain ⟨called, noRetry⟩ := reading.service last found service
    refine .inl ⟨⟨last, found, service⟩, { st with
      lastWasRetry := true
      hasTimeout := false
      nodes := st.nodes ++ [.retry count strategy fixedMs] }, ?_, ?_⟩
    · have same : tokenToAst (.retry count strategy fixedMs) = .retry count strategy fixedMs := rfl
      delta step flags
      simp [same, called, noRetry, before, found, retryAfter_service service]
    · exact reading.concat rfl rfl rfl (by simp) (by simp) fun _ => .inr fun _ => ⟨_, rfl⟩
  · refine .inr ⟨allowed, ?_⟩
    delta step flags
    simp only [tokenToAst, before]
    cases called : st.lastWasService with
    | false => exact ⟨_, rfl⟩
    | true =>
      obtain ⟨last, found, service | refuses⟩ := reading.called called
      · exact absurd ⟨last, found, service⟩ allowed
      · cases st.lastWasRetry with
        | true => exact ⟨_, rfl⟩
        | false =>
          obtain ⟨e, refused⟩ := refuses (.retry count strategy fixedMs)
          simp [found, refused]

theorem Reading.collect_ : Round seen st .collect := by
  cases pending : st.pendingCollect with
  | false =>
    refine .inr ⟨?_, ?_⟩
    · simp [Allowed, ← reading.collect, pending]
    · delta step flags
      simp [tokenToAst, pending]
  | true =>
    refine .inl ⟨reading.collect.symm.trans pending, { st with
      lastWasService := true
      lastWasRetry := false
      pendingCollect := false
      hasTimeout := false
      nodes := st.nodes ++ [.collect] }, ?_, ?_⟩
    · delta step flags
      simp [tokenToAst, pending]
    · exact reading.concat rfl rfl rfl (by simp) (by simp) fun _ => .inr fun _ => ⟨_, rfl⟩

theorem Reading.timeout_ (ms : UInt64) : Round seen st (.timeout ms) := by
  cases waiting : st.hasTimeout with
  | true =>
    refine .inr ⟨?_, ?_⟩
    · simp [Allowed, ← reading.timeout, waiting]
    · delta step flags
      simp [tokenToAst, waiting, reading.idle waiting]
  | false =>
    refine .inl ⟨reading.timeout.symm.trans waiting, { st with
      hasTimeout := true
      lastWasService := false
      nodes := st.nodes ++ [.timeout ms] }, ?_, ?_⟩
    · delta step flags
      simp [tokenToAst, waiting]
    · exact reading.concat rfl rfl rfl (fun _ => rfl) (by simp) (by simp)

theorem Reading.round (token : Token) : Round seen st token := by
  cases token with
  | retry count strategy fixedMs => exact reading.retry count strategy fixedMs
  | collect => exact reading.collect_
  | timeout ms => exact reading.timeout_ ms
  | _ =>
    refine .inl ⟨trivial, _, rfl, reading.concat rfl rfl rfl ?_ ?_ ?_⟩ <;> simp [tokenToAst, retryAfter]

theorem Reading.loop (tokens : List Token) : (∃ st', loop st tokens = .ok st' ∧ Reading (seen ++ tokens) st' ∧
      ∀ before token after, tokens = before ++ token :: after → Allowed (seen ++ before) token) ∨
    ((∃ e, loop st tokens = .error e) ∧
      ∃ before token after, tokens = before ++ token :: after ∧ ¬ Allowed (seen ++ before) token) := by
  induction tokens generalizing seen st with
  | nil =>
    refine .inl ⟨st, rfl, by simpa using reading, ?_⟩
    intro before token after split
    simp at split
  | cons token tokens ih =>
    rcases reading.round token with ⟨allowed, st', stepped, next⟩ | ⟨refused, e, stepped⟩
    · rcases ih next with ⟨last, looped, read, rest⟩ | ⟨⟨e, looped⟩, before, token', after, rfl, refused⟩
      · refine .inl ⟨last, by rw [Parser.loop, stepped]; exact looped, by simpa using read, ?_⟩
        intro before token' after split
        rcases List.cons_eq_append_iff.mp split with ⟨rfl, here⟩ | ⟨before, rfl, later⟩
        · cases here
          simpa using allowed
        · simpa using rest before token' after later
      · refine .inr ⟨⟨e, by rw [Parser.loop, stepped]; exact looped⟩, token :: before, token', after, rfl, ?_⟩
        simpa using refused
    · exact .inr ⟨⟨e, by rw [Parser.loop, stepped]⟩, [], token, tokens, rfl, by simpa using refused⟩

end

end

variable {seen : List Token}

theorem allowed_retry {count : UInt8} {strategy : Option String} {fixedMs : Option UInt32} :
    Allowed seen (.retry count strategy fixedMs) ↔
      ∃ earlier service, seen = earlier ++ [service] ∧ service.isService = true := by
  constructor
  · rintro ⟨last, found, service⟩
    obtain ⟨earlier, rfl⟩ := List.getLast?_eq_some_iff.mp found
    exact ⟨earlier, last, rfl, service⟩
  · rintro ⟨earlier, last, rfl, service⟩
    exact ⟨last, List.getLast?_concat, service⟩

theorem allowed_collect : Allowed seen .collect ↔
    ∃ earlier targets between, seen = earlier ++ .parallel targets :: between ∧ .collect ∉ between := by
  rw [Allowed, Latch.after_iff_uncleared]
  constructor
  · rintro ⟨earlier, token, between, split, parallel, uncollected⟩
    cases token with
    | parallel targets =>
      refine ⟨earlier, targets, between, split, fun collected => ?_⟩
      exact absurd (uncollected .collect collected) (by simp)
    | _ => cases parallel
  · rintro ⟨earlier, targets, between, split, uncollected⟩
    refine ⟨earlier, .parallel targets, between, split, rfl, ?_⟩
    intro token inside
    cases token with
    | collect => exact absurd inside uncollected
    | _ => rfl

theorem allowed_timeout {ms : UInt64} : Allowed seen (.timeout ms) ↔
    ∀ earlier ms' between, seen = earlier ++ .timeout ms' :: between → ∃ token ∈ between, token.renews = true := by
  rw [Allowed, ← Bool.not_eq_true, Latch.after_iff_uncleared]
  constructor
  · intro none_ earlier ms' between split
    by_contra idle
    refine none_ ⟨earlier, .timeout ms', between, split, rfl, ?_⟩
    intro token inside
    by_contra renews
    exact idle ⟨token, inside, by simpa using renews⟩
  · rintro renewed ⟨earlier, token, between, split, timeout, idle⟩
    cases token with
    | timeout ms' =>
      obtain ⟨token, inside, renews⟩ := renewed earlier ms' between split
      rw [idle token inside] at renews
      cases renews
    | _ => cases timeout

/-- The rules say that each token is allowed where it stands. -/
theorem wellFormed_iff {tokens : List Token} : WellFormed tokens ↔
    tokens ≠ [] ∧ ∀ before token after, tokens = before ++ token :: after → Allowed before token := by
  constructor
  · intro rules
    refine ⟨rules.nonempty, ?_⟩
    intro before token after split
    cases token with
    | retry count strategy fixedMs =>
      exact allowed_retry.mpr (rules.retries before count strategy fixedMs after split)
    | collect => exact allowed_collect.mpr (rules.collects before after split)
    | timeout ms =>
      refine allowed_timeout.mpr fun earlier ms' between splits => ?_
      exact rules.timeouts earlier ms' between ms after (by simp [split, splits])
    | _ => trivial
  · rintro ⟨nonempty, allowed⟩
    refine ⟨nonempty, ?_, ?_, ?_⟩
    · intro before count strategy fixedMs after split
      exact allowed_retry.mp (allowed before _ after split)
    · intro before after split
      exact allowed_collect.mp (allowed before _ after split)
    · intro before ms between ms' after split
      have here := allowed (before ++ .timeout ms :: between) (.timeout ms') after (by simp [split])
      exact allowed_timeout.mp here before ms between rfl

end Parser

theorem parse_nodes {tokens : List Token} {nodes : List ASTNode} (parsed : parse tokens = .ok nodes) :
    nodes = tokens.map tokenToAst := by
  have start : Parser.Reading [] {} := by
    constructor <;> simp
  rw [parse] at parsed
  split at parsed
  · cases parsed
  · rcases start.loop tokens with ⟨st, looped, read, -⟩ | ⟨⟨e, looped⟩, -⟩
    · rw [looped, Except.map, Except.ok.injEq] at parsed
      exact parsed ▸ read.nodes
    · rw [looped] at parsed
      cases parsed

/-- The parser accepts exactly the pipelines that keep the rules, and gives their tokens translated one by one. -/
theorem parse_ok_iff (tokens : List Token) (nodes : List ASTNode) :
    parse tokens = .ok nodes ↔ WellFormed tokens ∧ nodes = tokens.map tokenToAst := by
  rw [Parser.wellFormed_iff, parse]
  by_cases empty : tokens = []
  · simp [empty]
  · have start : Parser.Reading [] {} := by
      constructor <;> simp
    rw [if_neg (by simpa using empty)]
    rcases start.loop tokens with ⟨st, looped, read, allowed⟩ | ⟨⟨e, looped⟩, before, token, after, split, refused⟩
    · have translated : st.nodes = tokens.map tokenToAst := read.nodes
      rw [looped, Except.map, translated, Except.ok.injEq, eq_comm]
      exact ⟨fun same => ⟨⟨empty, allowed⟩, same⟩, And.right⟩
    · rw [looped]
      constructor
      · intro accepted
        cases accepted
      · rintro ⟨⟨-, allowed⟩, -⟩
        exact absurd (allowed before token after split) refused

end FlowRulZ
