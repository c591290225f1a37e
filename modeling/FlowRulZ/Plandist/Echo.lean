import FlowRulZ.Plandist.Node

/-! # Echoes

Over the cluster transport a published message is also handled by the node that publishes
it, before the call of `Publish` returns.  A leader that handles its own activation promotes
the version, the hook of `Promote` starts another activation, and so on.
-/

namespace FlowRulZ.Plandist

open List

def echo (env : Env) : Output → Option Event
  | .published pm => some (.deliver env true pm)
  | .acked am => some (.ack am)
  | .applied _ => none

/-- A node over the cluster transport; with every event comes what the handlers that it leads to find. -/
def wired : Component Node (Env × Event) Output where
  handle n event :=
    let (n, outputs) := n.handle event.2
    let (n, handled) := Node.component.run n (outputs.filterMap (echo event.1))
    -- handling a plan message sends an ack; nothing is sent by handling that
    let (n, acked) := Node.component.run n (handled.filterMap (echo event.1))
    (n, outputs ++ (handled ++ acked))

def activates (outputs : List Output) : Nat :=
  outputs.countP fun
    | .published pm => pm.type = .activate
    | _ => false

def Event.call : Event → Bool
  | .deploy .. | .promote .. => true
  | _ => false

/-- The calls of `Deploy` and `Promote` from outside. -/
def calls (events : List Event) : Nat := events.countP Event.call

/-- A goroutine that publishes an activation for a call, if it is not stopped. -/
def Goroutine.owed : Goroutine → Bool
  | .over => false
  | .afterPromote _ _ handled => !handled
  | _ => true

def Node.owed (n : Node) : Nat := n.goroutines.countP Goroutine.owed

/-- A hook of a promotion that message handling has made does not find the node to be the leader. -/
def Quiet (n : Node) : Event → Prop
  | .go k choice => ∀ id version, n.goroutines[k]? = some (.afterPromote id version true) →
      (choice.token.valid && choice.validates) = false
  | _ => True

section

variable (n : Node)

theorem activates_append (outputs more : List Output) :
    activates (outputs ++ more) = activates outputs + activates more :=
  countP_append ..

theorem owed_spawn (goroutine : Goroutine) : (n.spawn goroutine).owed = n.owed + if goroutine.owed then 1 else 0 := by
  simp [Node.owed, Node.spawn, countP_cons]

variable {n} in
theorem owed_resume {k : Nat} {now : Goroutine} (there : n.goroutines[k]? = some now) (next : Goroutine) :
    (n.resume k next).owed + (if now.owed then 1 else 0) = n.owed + if next.owed then 1 else 0 := by
  obtain ⟨lt, rfl⟩ := List.getElem?_eq_some_iff.mp there
  have one : n.goroutines[k].owed = true → 0 < n.owed := fun owed => countP_pos_iff.mpr ⟨_, getElem_mem lt, owed⟩
  unfold Node.owed at one ⊢
  rw [Node.resume, countP_set lt]
  by_cases owed : n.goroutines[k].owed = true
  · have := one owed
    rw [if_pos owed]
    omega
  · rw [if_neg owed]
    omega

variable {n} in
theorem owed_resume_le {k : Nat} {now : Goroutine} (there : n.goroutines[k]? = some now) (next : Goroutine)
    (owed : now.owed = true ∨ next.owed = false) : (n.resume k next).owed ≤ n.owed := by
  have resumed := owed_resume there next
  rcases owed with owed | ended
  · rw [if_pos owed] at resumed
    split at resumed <;> omega
  · rw [ended, if_neg Bool.false_ne_true] at resumed
    omega

theorem owed_promote (env : Env) (id : String) (version : UInt64) (handled : Bool) :
    (n.promote env id version handled).1.owed ≤ n.owed + if handled then 0 else 1 := by
  rcases n.promote_cases env id version handled with promoted | failed
  · rw [promoted, owed_spawn]
    cases handled <;> exact le_rfl
  · rw [failed]
    exact Nat.le_add_right ..

theorem activates_go {k : Nat} {choice : Choice} (quiet : Quiet n (.go k choice)) :
    activates (n.go k choice).2 + (n.go k choice).1.owed ≤ n.owed := by
  unfold Node.go
  split
  case h_1 id dsl plan version there =>
    split
    · exact Nat.zero_add _ ▸ owed_resume_le (n := { n with clusterTerm := choice.token.term }) there _ (.inl rfl)
    · exact Nat.zero_add _ ▸ owed_resume_le there _ (.inl rfl)
  case h_2 id version handled there =>
    refine Nat.zero_add _ ▸ owed_resume_le there _ ?_
    cases handled with
    | false => exact .inl rfl
    | true =>
      rw [quiet id version there]
      exact .inr rfl
  case h_3 id dsl plan version there =>
    split <;> exact Nat.zero_add _ ▸ owed_resume_le there _ (.inl rfl)
  case h_4 id version there =>
    exact Nat.zero_add _ ▸
      owed_resume_le (n := { n with acks := n.acks.waitForAcks id version 0 choice.alive }) there _ (.inl rfl)
  case h_5 id version call there =>
    split
    · exact Nat.zero_add _ ▸ owed_resume_le there _ (.inl rfl)
    · exact (Nat.zero_add _).le
  case h_6 id version call there =>
    have ended : (n.resume k .over).owed + 1 = n.owed := owed_resume there .over
    have one : activates (if choice.sends then [.published (n.message .activate id version [] "")] else []) ≤ 1 :=
      countP_le_length.trans (by split <;> simp)
    exact (Nat.add_comm ..).le.trans (ended ▸ Nat.add_le_add_left one _)
  case h_7 => exact (Nat.zero_add _).le

/-- The step: an activation that is published was started by a call. -/
theorem activates_handle {event : Event} (quiet : Quiet n event) :
    activates (n.handle event).2 + (n.handle event).1.owed ≤ n.owed + calls [event] := by
  cases event with
  | deploy env id dsl =>
    refine (Nat.zero_add _).le.trans ?_
    rw [Node.handle, Node.deploy]
    dsimp only
    split
    · exact (owed_spawn _ _).le
    · exact Nat.le_succ _
  | promote env id version => exact (Nat.zero_add _).le.trans (owed_promote n env id version false)
  | deliver env sends pm =>
    have handled := n.handled env sends pm
    have promote := owed_promote n env pm.ruleID pm.version true
    rw [Node.handle]
    generalize n.handlePlanMessage env sends pm = out at handled ⊢
    cases handled with
    | ignored | failed => exact (Nat.zero_add _).le
    | added => cases sends <;> exact (Nat.zero_add _).le
    | promoted | notPromoted => exact (Nat.zero_add _).le.trans promote
  | go k choice => exact activates_go n quiet
  | ack | becameLeader => exact (Nat.zero_add _).le

variable {n} in
theorem activates_echoes (env : Env) (outputs : List Output) :
    activates (Node.component.run n (outputs.filterMap (echo env))).2 +
      (Node.component.after n (outputs.filterMap (echo env))).owed ≤ n.owed := by
  -- the events are none of a goroutine and no calls
  have cons {n : Node} (event : Event) {events : List Event} (quiet : Quiet n event) (none : calls [event] = 0)
      (later : activates (Node.component.run (n.handle event).1 events).2 +
        (Node.component.after (n.handle event).1 events).owed ≤ (n.handle event).1.owed) :
      activates (Node.component.run n (event :: events)).2 + (Node.component.after n (event :: events)).owed ≤
        n.owed := by
    have here := activates_handle n quiet
    let rest := Node.component.run (n.handle event).1 events
    change activates ((n.handle event).2 ++ rest.2) + rest.1.owed ≤ n.owed
    change activates rest.2 + rest.1.owed ≤ _ at later
    rw [activates_append]
    omega
  induction outputs generalizing n with
  | nil => exact (Nat.zero_add _).le
  | cons output outputs ih =>
    cases output with
    | published pm => exact cons (.deliver env true pm) trivial rfl ih
    | acked am => exact cons (.ack am) trivial rfl ih
    | applied pm => exact ih

variable {n} in
theorem activates_run {events : List (Env × Event)} (quiet : wired.Throughout (Quiet · ·.2) n events) :
    activates (wired.run n events).2 + (wired.after n events).owed ≤ n.owed + calls (events.map (·.2)) := by
  induction events generalizing n with
  | nil => exact (Nat.zero_add _).le
  | cons event events ih =>
    have own := activates_handle n quiet.1
    let heard := Node.component.run (n.handle event.2).1 ((n.handle event.2).2.filterMap (echo event.1))
    have echoed : activates heard.2 + heard.1.owed ≤ (n.handle event.2).1.owed := activates_echoes ..
    let answered := Node.component.run heard.1 (heard.2.filterMap (echo event.1))
    have acked : activates answered.2 + answered.1.owed ≤ heard.1.owed := activates_echoes ..
    let rest := wired.run answered.1 events
    have later : activates rest.2 + rest.1.owed ≤ answered.1.owed + calls (events.map (·.2)) := ih quiet.2
    have split : calls ((event :: events).map (·.2)) = calls [event.2] + calls (events.map (·.2)) := by
      simp [calls, countP_cons, Nat.add_comm]
    change activates (((n.handle event.2).2 ++ (heard.2 ++ answered.2)) ++ rest.2) + rest.1.owed ≤ _
    rw [split, activates_append, activates_append, activates_append]
    omega

end

/-- An activation that is published was asked for from outside, if the hooks of promotions that messages have made do
not find the node to be the leader. -/
theorem activates_le_calls (nodeID : String) (engine : Engine) (events : List (Env × Event))
    (quiet : wired.Throughout (Quiet · ·.2) { nodeID, engine } events) :
    activates (wired.run { nodeID, engine } events).2 ≤ calls (events.map (·.2)) :=
  (Nat.le_add_right ..).trans ((activates_run quiet).trans (Nat.zero_add _).le)

def leads : Choice where
  token := ⟨true, 1⟩
  alive := some 1

def acceptsAll : Env where
  compile _ _ := .ok ⟨[], 1⟩

def deployed : List (Env × Event) :=
  (acceptsAll, .deploy acceptsAll "r" "x") :: List.replicate 5 (acceptsAll, .go 0 leads)

/-- The activation of a deploy comes back when the node has just lost its leadership. -/
theorem activates_once :
    let events := deployed ++ [(acceptsAll, .go 1 { leads with validates := false })]
    activates (wired.run { nodeID := "a", engine := { persistPath := "" } } events).2 = 1 ∧
      activates (wired.run { nodeID := "a", engine := { persistPath := "" } } events).2 ≤ calls (events.map (·.2)) := by
  refine ⟨rfl, activates_le_calls _ _ _ ?_⟩
  exact ⟨trivial, nofun, nofun, nofun, nofun, nofun, fun _ _ _ => rfl, trivial⟩

/-- The activation of a deploy comes back, and its hook publishes another one. -/
theorem deploy_activates_again :
    let events := deployed ++ List.replicate 2 (acceptsAll, .go 1 leads)
    calls (events.map (·.2)) = 1 ∧
      activates (wired.run { nodeID := "a", engine := { persistPath := "" } } events).2 = 2 :=
  ⟨rfl, rfl⟩

end FlowRulZ.Plandist
