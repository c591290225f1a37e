import FlowRulZ.Partition.Manager

/-! # The terms of assignments

`Rebalance` and `PublishAssignments` take the lock one after the other, and so do the check of a
message and the assignments in it.  Between the two anything else may come.
-/

namespace FlowRulZ.Partition

open List

structure Terms where
  manager : Manager
  computed : List (List Assignment × UInt64) := []
  checked : List PartitionMessage := []
  /-- What was published, with the term under which it was computed. -/
  published : List (PartitionMessage × UInt64) := []
  inForce : UInt64 := 0
  highest : UInt64 := 0

inductive LockedSection where
  | rebalance (aliveNodes : List String) (term : UInt64)
  | publish (number : Nat)
  /-- The first part of `HandleAssignmentMessage`. -/
  | check (pm : PartitionMessage)
  /-- The second part of `HandleAssignmentMessage`, for a message that passed the check. -/
  | apply (number : Nat)
  | onLeaderChange (leaderID : String)

namespace Terms

variable (r : Terms)

def enforce (manager : Manager) (term : UInt64) : Terms :=
  { r with manager, inForce := term, highest := if r.highest < term then term else r.highest }

def rebalance (aliveNodes : List String) (term : UInt64) : Terms :=
  let after := r.manager.rebalance aliveNodes term
  { r.enforce after.1 term with computed := r.computed ++ [(after.2, term)] }

def publish (computed : List Assignment × UInt64) : Terms :=
  match r.manager.publishAssignments computed.1 with
  | .error _ => r
  | .ok msg => { r with published := r.published ++ [(msg, computed.2)] }

def check (quote : String → String) (pm : PartitionMessage) : Terms :=
  match r.manager.check quote pm with
  | .error _ => r
  | .ok () => { r with checked := r.checked ++ [pm] }

end Terms

def lockedSections (quote : String → String) : Component Terms LockedSection Empty where
  handle r
    | .rebalance aliveNodes term => (r.rebalance aliveNodes term, [])
    | .publish number => (((r.computed[number]?).map r.publish).getD r, [])
    | .check pm => (r.check quote pm, [])
    | .apply number =>
      (((r.checked[number]?).map fun pm => r.enforce (r.manager.applyAssignments pm.assignments) pm.term).getD r, [])
    | .onLeaderChange leaderID => ({ r with manager := r.manager.onLeaderChange leaderID }, [])

namespace Terms

/-- The highest term is in force, and messages carry the terms of their assignments. -/
def Kept (r : Terms) : Prop := r.inForce = r.highest ∧ ∀ sent ∈ r.published, sent.1.term = sent.2

instance : DecidablePred Kept := fun r => inferInstanceAs (Decidable (r.inForce = r.highest ∧ ∀ sent ∈ r.published, _))

/-- No section goes back behind the term of the manager, and what is published has that term. -/
def Orderly (r : Terms) : LockedSection → Prop
  | .rebalance _ term => r.manager.currentTerm ≤ term
  | .publish number =>
    ∀ computed ∈ r.computed[number]?, r.manager.producer = true → r.manager.currentTerm = computed.2
  | .apply number => ∀ pm ∈ r.checked[number]?, r.manager.currentTerm ≤ pm.term
  | .check _ | .onLeaderChange _ => True

instance (r : Terms) : (s : LockedSection) → Decidable (r.Orderly s)
  | .rebalance _ _ => inferInstanceAs (Decidable (_ ≤ _))
  | .publish number => inferInstanceAs (Decidable (∀ computed ∈ r.computed[number]?, _))
  | .apply number => inferInstanceAs (Decidable (∀ pm ∈ r.checked[number]?, _))
  | .check _ | .onLeaderChange _ => inferInstanceAs (Decidable True)

end Terms

/-- A message as `PublishAssignments` sends it for what `Rebalance` returned: it has assignments, and they
carry its term. -/
def PartitionMessage.Genuine (pm : PartitionMessage) : Prop :=
  pm.assignments ≠ [] ∧ ∀ a ∈ pm.assignments, a.term = pm.term

namespace Terms

/-- The manager knows the term in force. -/
structure Steady (r : Terms) : Prop where
  kept : r.Kept
  current : r.manager.currentTerm = r.highest
  genuine : ∀ pm ∈ r.checked, pm.Genuine

variable {r : Terms}

theorem higher_eq {current term : UInt64} : (if current < term then term else current) = term ↔ current ≤ term := by
  split
  next less => simp [UInt64.le_of_lt less]
  next high => exact ⟨fun same => UInt64.le_of_eq same, fun below => UInt64.le_antisymm below (UInt64.not_lt.mp high)⟩

theorem foldl_terms {term : UInt64} {assignments : List Assignment} (same : ∀ a ∈ assignments, a.term = term)
    (current : UInt64) :
    assignments.foldl (fun term a => if term < a.term then a.term else term) current =
      if assignments = [] then current else if current < term then term else current := by
  induction assignments generalizing current with
  | nil => rfl
  | cons a assignments ih =>
    rw [foldl_cons, ih fun a member => same a (mem_cons_of_mem _ member), same a mem_cons_self]
    by_cases less : current < term <;> simp [less]

theorem applied_currentTerm (m : Manager) {pm : PartitionMessage} (genuine : pm.Genuine) :
    (m.applyAssignments pm.assignments).currentTerm = if m.currentTerm < pm.term then pm.term else m.currentTerm :=
  (foldl_terms genuine.2 m.currentTerm).trans (if_neg genuine.1)

theorem Steady.enforce (steady : r.Steady) (manager : Manager) (term : UInt64)
    (current : r.manager.currentTerm ≤ term → manager.currentTerm = term) :
    ((r.enforce manager term).Kept → r.manager.currentTerm ≤ term) ∧
      (r.manager.currentTerm ≤ term → (r.enforce manager term).Steady) := by
  rw [steady.current] at current ⊢
  refine ⟨fun kept => higher_eq.mp kept.1.symm, fun above => ?_⟩
  have highest : (r.enforce manager term).highest = term := higher_eq.mpr above
  exact ⟨⟨highest.symm, steady.kept.2⟩, (current above).trans highest.symm, steady.genuine⟩

theorem Steady.publish (steady : r.Steady) (computed : List Assignment × UInt64) :
    ((r.publish computed).Kept → r.manager.producer = true → r.manager.currentTerm = computed.2) ∧
      ((r.manager.producer = true → r.manager.currentTerm = computed.2) → (r.publish computed).Steady) := by
  unfold Terms.publish Manager.publishAssignments
  by_cases producer : r.manager.producer = true
  · simp only [producer, forall_const]
    refine ⟨fun kept => kept.2 _ (mem_append_right _ (mem_singleton_self _)), fun same => ?_⟩
    refine ⟨⟨steady.kept.1, fun sent member => ?_⟩, steady.current, steady.genuine⟩
    rcases mem_append.mp member with old | new
    · exact steady.kept.2 sent old
    · cases mem_singleton.mp new
      exact same
  · simpa [producer] using steady

theorem Steady.check (steady : r.Steady) {pm : PartitionMessage} (genuine : pm.Genuine) (quote : String → String) :
    (r.check quote pm).Steady := by
  unfold Terms.check
  split
  · exact steady
  · refine ⟨steady.kept, steady.current, fun other member => ?_⟩
    rcases mem_append.mp member with old | new
    · exact steady.genuine other old
    · exact mem_singleton.mp new ▸ genuine

end Terms

/-- The assignments in force are those of the highest term, and messages carry the terms of their assignments,
exactly if no section goes back behind the term of the manager: neither a `Rebalance`, nor a message that passed
the check when no leader was known or when the term was lower, nor a message that is sent after another term came. -/
theorem terms_kept_iff (quote : String → String) (numPartitions : UInt32) (producer : Bool)
    (sections : List LockedSection) (genuine : ∀ pm, .check pm ∈ sections → pm.Genuine) :
    let start : Terms := { manager := { newManager numPartitions with producer } }
    (lockedSections quote).Always Terms.Kept start sections ↔
      (lockedSections quote).Throughout Terms.Orderly start sections := by
  intro start
  have framed : (lockedSections quote).Throughout (fun _ s => ∀ pm, s = .check pm → pm.Genuine) start sections := by
    generalize start = r
    induction sections generalizing r with
    | nil => trivial
    | cons s sections ih =>
      exact ⟨fun pm same => genuine pm (same ▸ mem_cons_self), ih (fun pm member => genuine pm (mem_cons_of_mem _ member)) _⟩
  refine Component.always_iff_throughout _ (I := Terms.Steady) (fun _ steady => steady.kept) ?_ ?_ framed
  · intro r s steady fine
    cases s with
    | rebalance aliveNodes term =>
      have moved := steady.enforce (r.manager.rebalance aliveNodes term).1 term
        fun _ => by
          unfold Manager.rebalance
          dsimp only
          split <;> rfl
      exact ⟨moved.1, fun above => ⟨(moved.2 above).kept, (moved.2 above).current, steady.genuine⟩⟩
    | publish number =>
      simp only [lockedSections, Terms.Orderly]
      cases r.computed[number]? with
      | none => exact ⟨fun _ _ none => (by cases none), fun _ => steady⟩
      | some computed => simpa using steady.publish computed
    | check pm => exact ⟨fun _ => trivial, fun _ => steady.check (fine pm rfl) quote⟩
    | apply number =>
      simp only [lockedSections, Terms.Orderly]
      cases found : r.checked[number]? with
      | none => exact ⟨fun _ _ none => (by cases none), fun _ => steady⟩
      | some pm =>
        have raised := Terms.applied_currentTerm r.manager (steady.genuine pm (mem_of_getElem? found))
        have moved := steady.enforce (r.manager.applyAssignments pm.assignments) pm.term
          fun above => raised.trans (Terms.higher_eq.mpr above)
        simpa using moved
    | onLeaderChange leaderID => exact ⟨fun _ => trivial, fun _ => ⟨steady.kept, steady.current, steady.genuine⟩⟩
  · exact ⟨⟨rfl, fun _ member => absurd member not_mem_nil⟩, rfl, fun _ member => absurd member not_mem_nil⟩

def messageOf (nodeID : String) (term : UInt64) : PartitionMessage := ⟨"assign", [⟨nodeID, "", 0, term⟩], nodeID, term⟩

theorem terms_kept_later_message :
    (lockedSections id).Always Terms.Kept { manager := { newManager 1 with producer := true } }
      [.onLeaderChange "a", .rebalance ["a"] 1, .publish 0, .check (messageOf "a" 2), .apply 0] :=
  (terms_kept_iff id 1 true [.onLeaderChange "a", .rebalance ["a"] 1, .publish 0, .check (messageOf "a" 2), .apply 0]
    (by simp [messageOf, PartitionMessage.Genuine])).mpr (by decide)

/-- Without a leader an older message is applied; with a leader it is applied if it was checked before the newer one
came; and assignments are published under the term of a later `Rebalance`. -/
theorem terms_go_back :
    let after (sections : List LockedSection) :=
      (lockedSections id).after { manager := { newManager 1 with producer := true } } sections
    let leaderless := after [.check (messageOf "a" 2), .apply 0, .check (messageOf "a" 1), .apply 1]
    let raced := after [.onLeaderChange "a", .check (messageOf "a" 1), .check (messageOf "a" 2), .apply 1, .apply 0]
    let published := after [.onLeaderChange "a", .rebalance ["a"] 1, .rebalance ["a", "b"] 2, .publish 0]
    (leaderless.inForce = 1 ∧ leaderless.highest = 2) ∧ (raced.inForce = 1 ∧ raced.highest = 2) ∧
      published.published.map (fun sent => (sent.1.term, sent.2)) = [(2, 1)] := by
  decide

end FlowRulZ.Partition
