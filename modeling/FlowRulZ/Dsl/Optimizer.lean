import FlowRulZ.Dsl.Ast
import FlowRulZ.Lib.Float64

/-! # The optimizer

Eight passes over the node list.  A pass that keeps variables across the nodes is a
recursion with those variables as arguments.
-/

namespace FlowRulZ.Optimizer

/-- What a gate over two floats comes to; `none` for an operator the pass does not know. -/
def verdict (op : String) (fv vv : XRat) : Option Bool :=
  match op with
  | "==" => some ((Float64.sub fv vv).abs.lt Float64.epsilon)
  | "!=" => some (Float64.epsilon.le (Float64.sub fv vv).abs)
  | ">" => some (vv.lt fv)
  | "<" => some (fv.lt vv)
  | ">=" => some (vv.le fv)
  | "<=" => some (fv.le vv)
  | _ => none

/-- What the pass takes a gate for whose two operands are texts of floats. -/
def constantGate (field op value : String) : Option Bool :=
  match Float64.parse field, Float64.parse value with
  | some fv, some vv => verdict op fv vv
  | _, _ => none

/-- What the pass makes of a gate with the nodes `rest` after it. -/
def foldGate (field op value : String) (rest : List ASTNode) : Option Bool :=
  if .pipe ∈ rest then none else constantGate field op value

/-- A true constant gate goes away, a false one becomes a drop. -/
def simplifyGates : List ASTNode → List ASTNode
  | [] => []
  | .gate field op value :: rest =>
    match foldGate field op value rest with
    | some true => simplifyGates rest
    | some false => .drop :: simplifyGates rest
    | none => .gate field op value :: simplifyGates rest
  | node :: rest => node :: simplifyGates rest

/-- The loop of `hoist_timeouts`, with its two pending slots. -/
def hoistTimeouts.go (timeout : Option UInt64) (retry : Option ASTNode) : List ASTNode → List ASTNode
  | [] => (timeout.map .timeout).toList ++ retry.toList
  | .timeout ms :: rest => go (some ms) retry rest
  | .retry count strategy fixedMs :: rest => go timeout (some (.retry count strategy fixedMs)) rest
  | node :: rest =>
    if node.isService then
      (timeout.map .timeout).toList ++ node :: retry.toList ++ go none none rest
    else node :: go none none rest

def hoistTimeouts (nodes : List ASTNode) : List ASTNode := hoistTimeouts.go none none nodes

/-- A retry whose predecessor in the result is a retry goes away. -/
def mergeRetries.go (lastRetry : Bool) : List ASTNode → List ASTNode
  | [] => []
  | node :: rest =>
    if node.isRetry then
      if lastRetry then go true rest else node :: go true rest
    else node :: go false rest

def mergeRetries (nodes : List ASTNode) : List ASTNode := mergeRetries.go false nodes

/-- A run of emits becomes one. -/
def mergeEmits.go (merged : Option (List String)) : List ASTNode → List ASTNode
  | [] => (merged.map .emit).toList
  | .emit targets :: rest => go (some (merged.getD [] ++ targets)) rest
  | node :: rest => (merged.map .emit).toList ++ node :: go none rest

def mergeEmits (nodes : List ASTNode) : List ASTNode := mergeEmits.go none nodes

/-- The loop of `remove_dead_code`: whether the code is dead, and the labels held back. -/
def removeDeadCode.go (dead : Bool) (pendingLabels : List ASTNode) : List ASTNode → List ASTNode
  | [] => []
  | node :: rest =>
    if dead then
      match node with
      | .label _ | .jmp _ => pendingLabels ++ node :: go false [] rest
      | _ => go true pendingLabels rest
    else
      match node with
      | .drop | .jmp _ => node :: go true pendingLabels rest
      | .label _ => go false (pendingLabels ++ [node]) rest
      | _ => pendingLabels ++ node :: go false [] rest

def removeDeadCode (nodes : List ASTNode) : List ASTNode := removeDeadCode.go false [] nodes

def targets (nodes : List ASTNode) : List String :=
  nodes.filterMap fun
    | .jmp target => some target
    | _ => none

/-- A label stays if some jump goes to it; all other nodes stay. -/
def staysWith (targets : List String) : ASTNode → Bool
  | .label name => name ∈ targets
  | _ => true

def removeUnusedLabels (nodes : List ASTNode) : List ASTNode :=
  nodes.filter (staysWith (targets nodes))

/-- A jump to the label right after it goes away. -/
def eliminateRedundantJmps : List ASTNode → List ASTNode
  | [] => []
  | .jmp target :: .label name :: rest =>
    if name = target then eliminateRedundantJmps (.label name :: rest)
    else .jmp target :: eliminateRedundantJmps (.label name :: rest)
  | node :: rest => node :: eliminateRedundantJmps rest

def removeNops (nodes : List ASTNode) : List ASTNode := nodes.filter (· ≠ .pipe)

def optimize (nodes : List ASTNode) : List ASTNode :=
  removeNops (eliminateRedundantJmps (removeUnusedLabels (mergeRetries (removeDeadCode
    (mergeEmits (hoistTimeouts (simplifyGates nodes)))))))

end FlowRulZ.Optimizer
