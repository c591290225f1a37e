import FlowRulZ.Lib.Text

/-! # Pipeline nodes

The nodes a pipeline is made of, and the tokens the lexer hands to the parser.
-/

namespace FlowRulZ

inductive ASTNode where
  | next (target : String)
  | async (target : String)
  | parallel (targets : List String)
  | collect
  | fallback (target : String)
  | gate (field op value : String)
  | split (field : String)
  | map (expr : String)
  | emit (targets : List String)
  | drop
  | buffer (n : UInt64)
  | key (field : String)
  | retry (count : UInt8) (strategy : Option String) (fixedMs : Option UInt32)
  | pipe
  | timeout (ms : UInt64)
  | chunk (count : UInt8) (mode : String)
  | dag (body : String)
  | schema (body : String)
  | label (name : String)
  | jmp (target : String)
  | delay (ms : UInt64)
  deriving Repr, DecidableEq

namespace ASTNode

def display : ASTNode → String
  | .next t => "n:" ++ t
  | .async t => "a:" ++ t
  | .parallel ts => "p:" ++ Text.join "," ts
  | .collect => "c"
  | .fallback t => "f:" ++ t
  | .gate field op value => "g:" ++ field ++ op ++ value
  | .split field => "s:" ++ field
  | .map e => "m:" ++ e
  | .emit ts => "e:" ++ Text.join "," ts
  | .drop => "d"
  | .buffer n => "b" ++ toString n.toNat
  | .key k => "k:" ++ k
  | .retry count (some s) _ => "r" ++ toString count.toNat ++ ":" ++ s
  | .retry count none _ => "r" ++ toString count.toNat
  | .pipe => "|"
  | .timeout ms => "t" ++ toString ms.toNat
  | .chunk count mode => "chunk:" ++ toString count.toNat ++ ":" ++ mode
  | .dag body => "dag:" ++ body
  | .schema body => "schema:" ++ body
  | .label l => l ++ ":"
  | .jmp l => "j:" ++ l
  | .delay ms => "delay:" ++ toString ms.toNat

/-- A call of one service, the only nodes a retry or a timeout can belong to. -/
def isService : ASTNode → Bool
  | .next _ | .async _ => true
  | _ => false

def isRetry : ASTNode → Bool
  | .retry .. => true
  | _ => false

def isTimeout : ASTNode → Bool
  | .timeout _ => true
  | _ => false

theorem isService_cases {node : ASTNode} (isService : node.isService = true) :
    (∃ target, node = .next target) ∨ ∃ target, node = .async target := by
  cases node with
  | next target => exact .inl ⟨target, rfl⟩
  | async target => exact .inr ⟨target, rfl⟩
  | _ => cases isService

theorem isRetry_cases {node : ASTNode} (isRetry : node.isRetry = true) :
    ∃ count strategy fixedMs, node = .retry count strategy fixedMs := by
  cases node with
  | retry count strategy fixedMs => exact ⟨count, strategy, fixedMs, rfl⟩
  | _ => cases isRetry

theorem isRetry_of_isService {node : ASTNode} (isService : node.isService = true) : node.isRetry = false := by
  rcases isService_cases isService with ⟨target, rfl⟩ | ⟨target, rfl⟩ <;> rfl

end ASTNode

def timeoutOf : ASTNode → Option UInt64
  | .timeout ms => some ms
  | _ => none

inductive Token where
  | next (target : String)
  | async (target : String)
  | parallel (targets : List String)
  | collect
  | fallback (target : String)
  | gate (field op value : String)
  | split (field : String)
  | map (expr : String)
  | emit (targets : List String)
  | drop
  | buffer (n : UInt64)
  | key (field : String)
  | retry (count : UInt8) (strategy : Option String) (fixedMs : Option UInt32)
  | pipe
  | timeout (ms : UInt64)
  | chunk (count : UInt8) (mode : String)
  | dag (body : String)
  | schema (body : String)
  | label (name : String)
  | jmp (target : String)
  | delay (ms : UInt64)
  deriving Repr, DecidableEq

/-- `token_to_ast`, which accepts every token. -/
def tokenToAst : Token → ASTNode
  | .next t => .next t
  | .async t => .async t
  | .parallel ts => .parallel ts
  | .collect => .collect
  | .fallback t => .fallback t
  | .gate field op value => .gate field op value
  | .split f => .split f
  | .map e => .map e
  | .emit ts => .emit ts
  | .drop => .drop
  | .buffer n => .buffer n
  | .key k => .key k
  | .retry count strategy fixedMs => .retry count strategy fixedMs
  | .pipe => .pipe
  | .timeout ms => .timeout ms
  | .chunk count mode => .chunk count mode
  | .dag body => .dag body
  | .schema body => .schema body
  | .label l => .label l
  | .jmp l => .jmp l
  | .delay ms => .delay ms

end FlowRulZ
