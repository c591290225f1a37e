import FlowRulZ.Dsl.Optimizer
import FlowRulZ.Dsl.Parser
import FlowRulZ.Lib.Splits

/-! # Modifiers of service calls

A timeout stands right before the call it is for, a retry right after it.  The parser
sees to the second; hoisting the timeouts takes a retry for one that comes before.
-/

namespace FlowRulZ

open List

def RetriesFollowServices (nodes : List ASTNode) : Prop :=
  ∀ pre retry post, nodes = pre ++ retry :: post → retry.isRetry = true →
    ∃ pre' service, pre = pre' ++ [service] ∧ service.isService = true

namespace Parser

/-- What the parser knows: retries are in place, and after a node that counts as a service a retry is refused unless it
is a call of one. -/
structure Invariant (st : State) : Prop where
  retries : RetriesFollowServices st.nodes
  last : st.lastWasService = true → ∃ pre node, st.nodes = pre ++ [node] ∧
    (node.isService = true ∨ ∀ retry, ∃ e, retryAfter retry (some node) = .error e)

/-- The checks of one node: a retry is let through after a call of one service only, and the node counts as a service
only if retries after others than that are refused. -/
theorem flags_ok {st st' : State} {node : ASTNode} (inv : Invariant st) (h : flags st node = .ok st') :
    st'.nodes = st.nodes ∧
    (node.isRetry = true → ∃ pre service, st.nodes = pre ++ [service] ∧ service.isService = true) ∧
    (st'.lastWasService = true → node.isService = true ∨ ∀ retry, ∃ e, retryAfter retry (some node) = .error e) := by
  delta flags at h
  cases node with
  | retry count strategy fixedMs =>
    dsimp only at h
    split at h
    · cases h
    · rename_i called
      split at h
      · cases h
      · split at h
        · cases h
        · rename_i let_through
          cases h
          refine ⟨rfl, fun _ => ?_, fun _ => .inr fun retry => ⟨_, rfl⟩⟩
          obtain ⟨pre, last, split, service | refused⟩ := inv.last (by simpa using called)
          · exact ⟨pre, last, split, service⟩
          · obtain ⟨e, error⟩ := refused (.retry count strategy fixedMs)
            rw [split, getLast?_concat, error] at let_through
            cases let_through
  | timeout ms | collect =>
    dsimp only at h
    split at h
    · cases h
    · cases h
      exact ⟨rfl, nofun, by simp [retryAfter]⟩
  | next target | async target =>
    cases h
    exact ⟨rfl, nofun, fun _ => .inl rfl⟩
  | parallel targets | emit targets | drop | fallback target =>
    cases h
    exact ⟨rfl, nofun, fun _ => .inr fun retry => ⟨_, rfl⟩⟩
  | _ =>
    cases h
    exact ⟨rfl, nofun, by simp⟩

theorem step_invariant {st st' : State} {token : Token} (inv : Invariant st)
    (h : step st token = .ok st') : Invariant st' := by
  simp only [step] at h
  split at h
  · cases h
  · rename_i flagged accepted
    obtain ⟨same, retry, service⟩ := flags_ok inv accepted
    simp only [Except.ok.injEq] at h
    subst h
    constructor
    · rw [same]
      exact Splits.forall_concat.mpr ⟨retry, inv.retries⟩
    · intro called
      exact ⟨flagged.nodes, tokenToAst token, rfl, service called⟩

theorem loop_invariant {st st' : State} {tokens : List Token} (inv : Invariant st)
    (h : loop st tokens = .ok st') : Invariant st' := by
  induction tokens generalizing st with
  | nil => cases h; exact inv
  | cons token tokens ih =>
    simp only [loop] at h
    split at h
    · cases h
    · exact ih (step_invariant inv ‹_›) h

end Parser

theorem parse_retries {tokens : List Token} {nodes : List ASTNode} (h : parse tokens = .ok nodes) :
    RetriesFollowServices nodes := by
  simp only [parse] at h
  split at h
  · cases h
  · cases ran : Parser.loop {} tokens with
    | error e => rw [ran] at h; cases h
    | ok st =>
      rw [ran] at h
      cases h
      refine (Parser.loop_invariant ⟨?_, by simp⟩ ran).retries
      intro pre retry post split
      simp at split

structure ServiceView where
  timeout : Option UInt64
  node : ASTNode
  retry : Option ASTNode
  deriving Repr, DecidableEq

def leadingRetry : List ASTNode → Option ASTNode
  | [] => none
  | node :: _ => if node.isRetry then some node else none

/-- The calls of one service, in order, after a node with timeout `before`. -/
def viewsAfter (before : Option UInt64) : List ASTNode → List ServiceView
  | [] => []
  | node :: rest =>
    if node.isService then ⟨before, node, leadingRetry rest⟩ :: viewsAfter none rest
    else viewsAfter (timeoutOf node) rest

/-- Every occurrence of a call of one service, with the timeout right before it and the retry right after it. -/
def serviceViews (nodes : List ASTNode) : List ServiceView := viewsAfter none nodes

namespace Optimizer

variable {node retry : ASTNode} {timeout : Option UInt64} {pending : Option ASTNode} {rest : List ASTNode}

open hoistTimeouts

theorem go_service (service : node.isService = true) : go timeout pending (node :: rest) =
      (timeout.map .timeout).toList ++ node :: (pending.toList ++ go none none rest) := by
  rcases ASTNode.isService_cases service with ⟨target, rfl⟩ | ⟨target, rfl⟩ <;>
    simp [go, ASTNode.isService]

theorem go_retry (isRetry : retry.isRetry = true) :
    go timeout pending (retry :: rest) = go timeout (some retry) rest := by
  obtain ⟨count, strategy, fixedMs, rfl⟩ := ASTNode.isRetry_cases isRetry
  rfl

def isPlain (node : ASTNode) : Bool := !node.isService && !node.isRetry && !node.isTimeout

theorem go_plain (plain : isPlain node = true) : go timeout pending (node :: rest) = node :: go none none rest := by
  cases node with
  | next | async | retry | timeout => cases plain
  | _ => rfl

theorem isRetry_of_isPlain (plain : isPlain node = true) : node.isRetry = false := by
  cases node with
  | retry => cases plain
  | _ => rfl

theorem node_cases (node : ASTNode) :
    (∃ ms, node = .timeout ms) ∨ node.isRetry = true ∨ node.isService = true ∨ isPlain node = true := by
  cases node <;> simp [isPlain, ASTNode.isService, ASTNode.isRetry, ASTNode.isTimeout]

theorem leadingRetry_go_timeout {ms : UInt64} : leadingRetry (go (some ms) pending rest) = none := by
  induction rest generalizing ms pending with
  | nil => rfl
  | cons node rest ih =>
    rcases node_cases node with ⟨ms', rfl⟩ | isRetry | service | plain
    · exact ih
    · rw [go_retry isRetry]
      exact ih
    · rw [go_service service]
      rfl
    · rw [go_plain plain, leadingRetry, isRetry_of_isPlain plain]
      rfl

theorem leadingRetry_go (notRetry : node.isRetry = false) : leadingRetry (go none pending (node :: rest)) = none := by
  rcases node_cases node with ⟨ms, rfl⟩ | isRetry | service | plain
  · exact leadingRetry_go_timeout
  · rw [notRetry] at isRetry
    cases isRetry
  · rw [go_service service]
    simp [leadingRetry, notRetry]
  · rw [go_plain plain]
    simp [leadingRetry, notRetry]

theorem viewsAfter_service (service : node.isService = true) (rest : List ASTNode) :
    viewsAfter none ((timeout.map .timeout).toList ++ node :: rest) =
      ⟨timeout, node, leadingRetry rest⟩ :: viewsAfter none rest := by
  cases timeout with
  | none => rw [Option.map_none, Option.toList_none, nil_append, viewsAfter, if_pos service]
  | some ms =>
    have passed : viewsAfter none (.timeout ms :: node :: rest) = viewsAfter (some ms) (node :: rest) := rfl
    rw [Option.map_some, Option.toList_some, singleton_append, passed, viewsAfter, if_pos service]

theorem viewsAfter_plain (plain : isPlain node = true) (before : Option UInt64) :
    viewsAfter before (node :: rest) = viewsAfter none rest := by
  cases node with
  | next | async | retry | timeout => cases plain
  | _ => rfl

theorem leadingRetry_go_last (noRetry : ∀ node ∈ rest, node.isRetry = false) {last : List ASTNode}
    (atMostOne : last = [] ∨ ∃ retry, last = [retry] ∧ retry.isRetry = true) :
    leadingRetry (go none none (rest ++ last)) = leadingRetry (rest ++ last) := by
  cases rest with
  | nil =>
    rcases atMostOne with rfl | ⟨retry, rfl, isRetry⟩
    · rfl
    · rw [nil_append, go_retry isRetry]
      rfl
  | cons node rest =>
    have notRetry := noRetry node mem_cons_self
    rw [cons_append, leadingRetry_go notRetry, leadingRetry, notRetry]
    rfl

theorem viewsAfter_go (noRetry : ∀ node ∈ rest, node.isRetry = false) {last : List ASTNode}
    (atMostOne : last = [] ∨ ∃ retry, last = [retry] ∧ retry.isRetry = true) :
    viewsAfter none (go timeout none (rest ++ last)) = viewsAfter timeout (rest ++ last) := by
  induction rest generalizing timeout with
  | nil =>
    rcases atMostOne with rfl | ⟨retry, rfl, isRetry⟩
    · cases timeout <;> rfl
    · obtain ⟨count, strategy, fixedMs, rfl⟩ := ASTNode.isRetry_cases isRetry
      cases timeout <;> rfl
  | cons node rest ih =>
    have notRetry := noRetry node mem_cons_self
    have later := fun node inside => noRetry node (mem_cons_of_mem _ inside)
    rw [cons_append]
    rcases node_cases node with ⟨ms, rfl⟩ | isRetry | service | plain
    · exact ih later
    · rw [notRetry] at isRetry
      cases isRetry
    · rw [go_service service, Option.toList_none, nil_append, viewsAfter_service service,
        ih later, leadingRetry_go_last later atMostOne, viewsAfter, if_pos service]
    · rw [go_plain plain, viewsAfter_plain plain, viewsAfter_plain plain, ih later]

/-- The first retry of a list is lost, or goes to another call, if a node follows it. -/
theorem viewsAfter_go_ne {pre post : List ASTNode} {service next : ASTNode}
    (noRetry : ∀ node ∈ pre, node.isRetry = false) (isService : service.isService = true)
    (isRetry : retry.isRetry = true) (notRetry : next.isRetry = false) :
    viewsAfter none (go timeout none (pre ++ service :: retry :: next :: post)) ≠
      viewsAfter timeout (pre ++ service :: retry :: next :: post) := by
  induction pre generalizing timeout with
  | nil =>
    rw [nil_append, go_service isService, Option.toList_none, nil_append,
      viewsAfter_service isService, viewsAfter, if_pos isService, go_retry isRetry,
      leadingRetry_go notRetry]
    simp [leadingRetry, isRetry]
  | cons node pre ih =>
    have later := fun node inside => noRetry node (mem_cons_of_mem _ inside)
    rw [cons_append]
    rcases node_cases node with ⟨ms, rfl⟩ | isRetry | service | plain
    · exact ih later
    · rw [noRetry node mem_cons_self] at isRetry
      cases isRetry
    · rw [go_service service, Option.toList_none, nil_append, viewsAfter_service service, viewsAfter, if_pos service]
      intro same
      rw [List.cons.injEq] at same
      exact ih later same.2
    · rw [go_plain plain, viewsAfter_plain plain, viewsAfter_plain plain]
      exact ih later

theorem first_retry (nodes : List ASTNode) : (∀ node ∈ nodes, node.isRetry = false) ∨
      ∃ pre retry post, nodes = pre ++ retry :: post ∧ retry.isRetry = true ∧ ∀ node ∈ pre, node.isRetry = false := by
  cases found : nodes.find? (·.isRetry) with
  | none => exact .inl (by simpa using found)
  | some retry =>
    obtain ⟨isRetry, pre, post, split, before⟩ := find?_eq_some_iff_append.mp found
    exact .inr ⟨pre, retry, post, split, isRetry, by simpa using before⟩

/-- Hoisting the timeouts of an accepted list keeps the modifiers of every call exactly when no node comes after a
retry. -/
theorem hoistTimeouts_views_iff {tokens : List Token} {nodes : List ASTNode} (accepted : parse tokens = .ok nodes) :
    serviceViews (hoistTimeouts nodes) = serviceViews nodes ↔
      ∀ pre retry post, nodes = pre ++ retry :: post → retry.isRetry = true → post = [] := by
  have placed := parse_retries accepted
  rcases first_retry nodes with free | ⟨pre, retry, post, rfl, isRetry, before⟩
  · have same : serviceViews (hoistTimeouts nodes) = serviceViews nodes := by
      have kept : serviceViews (hoistTimeouts (nodes ++ [])) = serviceViews (nodes ++ []) :=
        viewsAfter_go free (.inl rfl)
      rwa [append_nil] at kept
    refine iff_of_true same ?_
    rintro pre retry post rfl isRetry
    rw [free retry (by simp)] at isRetry
    cases isRetry
  · obtain ⟨pre, service, rfl, isService⟩ := placed pre retry post rfl isRetry
    cases post with
    | nil =>
      have same : serviceViews (hoistTimeouts (pre ++ [service] ++ [retry])) =
          serviceViews (pre ++ [service] ++ [retry]) :=
        viewsAfter_go before (.inr ⟨retry, rfl, isRetry⟩)
      refine iff_of_true same (Splits.forall_concat.mpr ⟨fun _ => rfl, ?_⟩)
      intro pre' other post inside isRetry'
      rw [before other (by rw [inside]; simp)] at isRetry'
      cases isRetry'
    | cons next post =>
      refine iff_of_false ?_ fun last => ?_
      · have notRetry : next.isRetry = false := by
          by_contra again
          obtain ⟨pre', other, split, isService'⟩ :=
            placed (pre ++ [service] ++ [retry]) next post (by simp) (by simpa using again)
          obtain ⟨-, same⟩ := append_inj' split rfl
          cases same
          rw [ASTNode.isRetry_of_isService isService'] at isRetry
          cases isRetry
        rw [append_assoc]
        exact viewsAfter_go_ne (fun node inside => before node (by simp [inside])) isService isRetry notRetry
      · have none := last _ retry (next :: post) rfl isRetry
        cases none

theorem hoistTimeouts_views_last :
    serviceViews (hoistTimeouts [.timeout 500, .next "a", .next "b", .retry 3 none none]) =
      serviceViews [.timeout 500, .next "a", .next "b", .retry 3 none none] := by
  have accepted : parse [.timeout 500, .next "a", .next "b", .retry 3 none none] =
      .ok [.timeout 500, .next "a", .next "b", .retry 3 none none] := rfl
  apply (hoistTimeouts_views_iff accepted).mpr
  intro pre retry post split isRetry
  rcases pre with _ | ⟨_, _ | ⟨_, _ | ⟨_, _ | ⟨_, pre⟩⟩⟩⟩
  · cases split; cases isRetry
  · cases split; cases isRetry
  · cases split; cases isRetry
  · cases split; rfl
  · simp at split

/-- The retry of the first call goes to the second one. -/
theorem hoistTimeouts_views_moved : parse [.next "a", .retry 3 none none, .next "b"] =
        .ok [.next "a", .retry 3 none none, .next "b"] ∧
      serviceViews (hoistTimeouts [.next "a", .retry 3 none none, .next "b"]) ≠
        serviceViews [.next "a", .retry 3 none none, .next "b"] :=
  ⟨rfl, by decide⟩

end Optimizer

end FlowRulZ
