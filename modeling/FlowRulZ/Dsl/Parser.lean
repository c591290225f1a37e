import FlowRulZ.Dsl.Ast
import Mathlib.Data.List.Basic

/-! # The pipeline parser

One pass over the tokens with four flags.  Each error carries the text of the node
it was raised at.
-/

namespace FlowRulZ

inductive ParseError where
  | retryWithoutPrecedingService (node : String)
  | retryAfterParallel (node : String)
  | retryAfterCollect (node : String)
  | retryAfterFallback (node : String)
  | retryAfterEmit (node : String)
  | retryAfterDrop (node : String)
  | retryAfterGate (node : String)
  | retryAfterPipe (node : String)
  | retryAfterLabel (node : String)
  | retryAfterJmp (node : String)
  | retryAfterRetry (node : String)
  | collectWithoutParallel (node : String)
  | multipleTimeoutsBetweenServices (node : String)
  | emptyPipeline
  deriving Repr, DecidableEq

namespace Parser

structure State where
  nodes : List ASTNode := []
  lastWasService : Bool := false
  lastWasRetry : Bool := false
  pendingCollect : Bool := false
  hasTimeout : Bool := false
  deriving Repr, DecidableEq

def retryAfter (node : ASTNode) : Option ASTNode → Except ParseError Unit
  | some (.parallel _) => .error (.retryAfterParallel node.display)
  | some .collect => .error (.retryAfterCollect node.display)
  | some (.fallback _) => .error (.retryAfterFallback node.display)
  | some (.emit _) => .error (.retryAfterEmit node.display)
  | some .drop => .error (.retryAfterDrop node.display)
  | some (.gate ..) => .error (.retryAfterGate node.display)
  | some .pipe => .error (.retryAfterPipe node.display)
  | some (.label _) => .error (.retryAfterLabel node.display)
  | some (.jmp _) => .error (.retryAfterJmp node.display)
  | some (.retry ..) => .error (.retryAfterRetry node.display)
  | _ => .ok ()

def flags (st : State) (node : ASTNode) : Except ParseError State :=
  match node with
  | .retry .. =>
    if !st.lastWasService then .error (.retryWithoutPrecedingService node.display)
    else if st.lastWasRetry then .error (.retryAfterRetry node.display)
    else
      match retryAfter node st.nodes.getLast? with
      | .error e => .error e
      | .ok () => .ok { st with lastWasRetry := true, hasTimeout := false }
  | .timeout _ =>
    if st.hasTimeout && !st.lastWasService then
      .error (.multipleTimeoutsBetweenServices node.display)
    else .ok { st with hasTimeout := true, lastWasService := false }
  | .chunk .. => .ok { st with lastWasService := false, lastWasRetry := false, hasTimeout := false }
  | .next _ | .async _ =>
    .ok { st with lastWasService := true, lastWasRetry := false, hasTimeout := false }
  | .parallel _ =>
    .ok { st with
      lastWasService := true, pendingCollect := true, lastWasRetry := false, hasTimeout := false }
  | .collect =>
    if !st.pendingCollect then .error (.collectWithoutParallel node.display)
    else .ok { st with
      pendingCollect := false, lastWasService := true, lastWasRetry := false, hasTimeout := false }
  | .emit _ | .drop | .fallback _ =>
    .ok { st with lastWasService := true, lastWasRetry := false, hasTimeout := false }
  | _ => .ok { st with lastWasService := false, lastWasRetry := false }

def step (st : State) (token : Token) : Except ParseError State :=
  let node := tokenToAst token
  match flags st node with
  | .error e => .error e
  | .ok st => .ok { st with nodes := st.nodes ++ [node] }

def loop (st : State) : List Token → Except ParseError State
  | [] => .ok st
  | token :: rest =>
    match step st token with
    | .error e => .error e
    | .ok st => loop st rest

end Parser

/-- `parse`: the nodes of the pipeline, or the first error. -/
def parse (tokens : List Token) : Except ParseError (List ASTNode) :=
  if tokens.isEmpty then .error .emptyPipeline
  else (Parser.loop {} tokens).map (·.nodes)

end FlowRulZ
