import Mathlib.Data.Fintype.EquivFin
import FlowRulZ.Plandist.Node

/-! # Fencing by term

A node rejects plan messages of a term below its own, but its own term is set only when it
becomes leader or deploys.  A node that follows applies the messages of any term from its
own on, in any order.
-/

open List

namespace FlowRulZ.Plandist

open Plandist.Node

def appliedTerms (outputs : List Output) : List UInt64 :=
  outputs.filterMap fun
    | .applied pm => some pm.term
    | _ => none

/-- Nothing is applied after a message of a larger term. -/
def Fenced (outputs : List Output) : Prop := (appliedTerms outputs).Pairwise (· ≤ ·)

/-- The term of the node is not below that of a message it has applied. -/
def CaughtUp (n : Node) (events : List Event) : Prop :=
  ∀ term ∈ appliedTerms (Node.component.run n events).2, term ≤ (Node.component.after n events).clusterTerm

def noCompiler : Env where
  compile _ _ := .error ""

section

variable (n : Node)

/-- A message that is applied is not of a lower term than the node's. -/
theorem appliedTerms_deliver (env : Env) (sends : Bool) (pm : PlanMessage) :
    appliedTerms (n.handlePlanMessage env sends pm).2 = [] ∨
      n.clusterTerm ≤ pm.term ∧ appliedTerms (n.handlePlanMessage env sends pm).2 = [pm.term] := by
  have handled := n.handled env sends pm
  generalize n.handlePlanMessage env sends pm = out at handled ⊢
  cases handled with
  | ignored => exact .inl rfl
  | added current type performed =>
    refine .inr ⟨current, ?_⟩
    cases sends <;> rfl
  | failed current type performed failed => exact .inl rfl
  | promoted current type promoted => exact .inr ⟨current, rfl⟩
  | notPromoted current type failed => exact .inl rfl

theorem appliedTerms_handle (event : Event) : appliedTerms (n.handle event).2 = [] ∨
      ∃ term, n.clusterTerm ≤ term ∧ appliedTerms (n.handle event).2 = [term] := by
  cases event with
  | deliver env sends pm =>
    rcases appliedTerms_deliver n env sends pm with nothing | ⟨current, applied⟩
    · exact .inl nothing
    · exact .inr ⟨pm.term, current, applied⟩
  | go k choice =>
    left
    simp only [handle, go]
    repeat' split
    all_goals rfl
  | deploy | promote | ack | becameLeader => exact .inl rfl

variable {n} {events : List Event}

theorem appliedTerms_concat (event : Event) : appliedTerms (component.run n (events ++ [event])).2 =
      appliedTerms (component.run n events).2 ++ appliedTerms ((component.after n events).handle event).2 := by
  rw [Component.run_append]
  simp [component, appliedTerms]

theorem fenced_concat (fenced : Fenced (component.run n events).2) (caughtUp : CaughtUp n events)
    (event : Event) : Fenced (component.run n (events ++ [event])).2 := by
  unfold Fenced
  rw [appliedTerms_concat]
  rcases appliedTerms_handle (component.after n events) event with nothing | ⟨term, current, applied⟩
  · rw [nothing, append_nil]
    exact fenced
  · rw [applied]
    refine pairwise_append.mpr ⟨fenced, pairwise_singleton .., ?_⟩
    intro before done after now
    rw [mem_singleton.mp now]
    exact UInt64.le_trans (caughtUp before done) current

theorem fenced_run (caughtUp : ∀ k < events.length, CaughtUp n (events.take k)) :
    Fenced (component.run n events).2 := by
  induction events using List.reverseRecOn with
  | nil => exact List.Pairwise.nil
  | append_singleton events event ih =>
    have before : ∀ k ≤ events.length, CaughtUp n (events.take k) := by
      intro k le
      have := caughtUp k (by simp; omega)
      rwa [take_append_of_le_length le] at this
    refine fenced_concat (ih fun k lt => before k lt.le) ?_ event
    simpa using before events.length le_rfl

variable (n events) in
theorem persistPath_after : (component.after n events).engine.persistPath = n.engine.persistPath := by
  induction events using List.reverseRecOn with
  | nil => rfl
  | append_singleton events event ih =>
    rw [Component.after_concat, ← ih]
    rcases (component.after n events).engine_handle event with same | ⟨op, -, performed⟩
    · exact congrArg Engine.persistPath same
    · exact (congrArg Engine.persistPath performed).trans (Engine.perform_persistPath _ op)

variable (n) in
/-- Without a path, a plan for a rule that is not known yet is always added. -/
theorem exists_applied (inMemory : n.engine.persistPath = "") :
    ∃ (env : Env) (pm : PlanMessage), appliedTerms (n.handlePlanMessage env true pm).2 = [n.clusterTerm] := by
  obtain ⟨id, fresh⟩ := Infinite.exists_notMem_finset n.engine.rules.keys.toFinset
  have unknown : n.engine.rules.lookup id = none :=
    AList.lookup_eq_none.mpr fun known => fresh (mem_toFinset.mpr (AList.mem_keys.mp known))
  let env : Env := noCompiler
  let pm : PlanMessage := { type := .plan, ruleID := id, version := 1, term := n.clusterTerm, nodeID := "" }
  have missing : find pm.version (n.engine.ruleOr pm.ruleID (-1)).versions = .missing := by
    simp [pm, Engine.ruleOr, unknown, find]
  have committed := Engine.addVersion_missing n.engine env pm.ruleID pm.dsl pm.plan pm.version missing
  have current : ¬pm.term < n.clusterTerm := UInt64.lt_irrefl n.clusterTerm
  refine ⟨env, pm, ?_⟩
  rw [handlePlanMessage, if_neg current]
  cases performed : n.engine.perform (.addVersion env pm.ruleID pm.dsl pm.plan pm.version) with
  | mk reply engine =>
    rcases committed.ended with ⟨-, path, -⟩ | ⟨added, -⟩
    · exact absurd inMemory path
    · have : reply = some .added := (congrArg Prod.fst performed).symm.trans added
      subst this
      rfl

end

/-- While the term of a node is not below those of the messages it has applied, the messages it applies are in the order
of their terms; and only then is it safe from the next message. -/
theorem fenced_while_caughtUp (n : Node) (events : List Event) :
    ((∀ k < events.length, CaughtUp n (events.take k)) → Fenced (Node.component.run n events).2) ∧
      (n.engine.persistPath = "" →
        (∀ env sends pm, Fenced (Node.component.run n (events ++ [.deliver env sends pm])).2) → CaughtUp n events) := by
  refine ⟨fenced_run, fun inMemory safe term applied => ?_⟩
  have path := (persistPath_after n events).trans inMemory
  obtain ⟨env, pm, current⟩ := exists_applied _ path
  have fenced := safe env true pm
  rw [Fenced, appliedTerms_concat, handle, current] at fenced
  exact (pairwise_append.mp fenced).2.2 term applied _ (mem_singleton_self _)

instance (n : Node) (events : List Event) : Decidable (CaughtUp n events) :=
  List.decidableBAll (· ≤ (Node.component.after n events).clusterTerm) (appliedTerms (Node.component.run n events).2)

instance (outputs : List Output) : Decidable (Fenced outputs) :=
  inferInstanceAs (Decidable ((appliedTerms outputs).Pairwise (· ≤ ·)))

/-- A node that was leader before, and the plans and activations of two leaders. -/
theorem fenced_after_leading :
    let n : Node := { nodeID := "b", engine := { persistPath := "" } }
    Fenced (Node.component.run n [.becameLeader 5,
          .deliver noCompiler true { type := .plan, ruleID := "r", version := 2, term := 5, nodeID := "a" },
          .deliver noCompiler true { type := .activate, ruleID := "r", version := 2, term := 5, nodeID := "a" },
          .deliver noCompiler true { type := .plan, ruleID := "r", version := 1, term := 3, nodeID := "c" }]).2 ∧
      CaughtUp n [] := by
  refine ⟨(fenced_while_caughtUp _ _).1 (by decide), (fenced_while_caughtUp _ []).2 rfl ?_⟩
  intro env sends pm
  exact fenced_concat (by decide) (by decide) (.deliver env sends pm)

/-- A follower goes back to the plan of an older leader. -/
theorem follower_goes_back :
    let n : Node := { nodeID := "b", engine := { persistPath := "" } }
    let events : List Event :=
      [.deliver noCompiler true { type := .plan, ruleID := "r", version := 2, term := 5, nodeID := "a" },
        .deliver noCompiler true { type := .activate, ruleID := "r", version := 2, term := 5, nodeID := "a" },
        .deliver noCompiler true { type := .plan, ruleID := "r", version := 1, term := 3, nodeID := "c" },
        .deliver noCompiler true { type := .activate, ruleID := "r", version := 1, term := 3, nodeID := "c" }]
    ¬Fenced (component.run n events).2 ∧
      ((component.after n events).engine.activePlan "r").map (·.version) = some 1 := by
  decide

end FlowRulZ.Plandist
