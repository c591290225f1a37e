import FlowRulZ.Dsl.Flow
import FlowRulZ.Dsl.Optimizer

/-! # Removing unused labels

A label no jump goes to may still be where a false gate lands.  In a run where that
does not happen, the optimized run is the original one with the unused labels left out.
-/

namespace FlowRulZ.Optimizer

open List

open FlowRulZ.Flow

variable {S E : Type*} (gate : S → ASTNode → Except E (Bool × S)) (exec : S → ASTNode → Except E S)

/-- If a false gate led here and the node at hand is a label, then some jump goes to it. -/
def LandsOnUsed (nodes : List ASTNode) (s : State ASTNode S) : Prop :=
  s.skipping = true → ∀ node ∈ s.rest.head?, staysWith (targets nodes) node = true

instance (nodes : List ASTNode) : DecidablePred (LandsOnUsed (S := S) nodes) :=
  fun s => inferInstanceAs (Decidable (s.skipping = true → _))

variable {gate exec} {nodes : List ASTNode} {target : String}

theorem not_staysWith_iff {used : List String} {node : ASTNode} :
    ¬ staysWith used node = true ↔ ∃ name, node = .label name ∧ name ∉ used := by
  cases node <;> simp [staysWith]

theorem mem_targets (jump : .jmp target ∈ nodes) : target ∈ targets nodes :=
  mem_filterMap.mpr ⟨_, jump, rfl⟩

theorem seek_filter {keep : ASTNode → Bool} (kept : keep (.label target) = true) :
    seek ASTNode.control target (nodes.filter keep) = (seek ASTNode.control target nodes).filter keep := by
  apply seek_commutes
  · induction nodes with
    | nil => rfl
    | cons node nodes ih =>
      by_cases here : node = .label target
      · subst here
        simp [fromLabel, kept, ASTNode.control]
      · have other : node.control ≠ .label target :=
          mt ASTNode.control_eq_label.mp here
        by_cases keeps : keep node = true
        · simp only [filter_cons_of_pos keeps, fromLabel, if_neg other, ih]
        · simp only [filter_cons_of_neg keeps, fromLabel, if_neg other, ih]
  · rfl
  · intro node rest here
    rw [ASTNode.control_eq_label.mp here, filter_cons_of_pos kept]
    exact cons_ne_nil _ _

theorem next_stays {s : State ASTNode S} {node : ASTNode} {rest : List ASTNode}
    (inside : s.rest <:+ nodes) (head : s.rest = node :: rest) :
    (machine (nodeEnv gate exec) (removeUnusedLabels nodes)).next
        { s with rest := node :: rest.filter (staysWith (targets nodes)) } =
      ((machine (nodeEnv gate exec) nodes).next s).map
        (fun s' => { s' with rest := s'.rest.filter (staysWith (targets nodes)) }) id := by
  refine next_kept _ head fun _ target jump => ?_
  have used : target ∈ targets nodes :=
    mem_targets (inside.subset (head ▸ ASTNode.control_eq_jmp.mp jump ▸ mem_cons_self))
  exact seek_filter (by simp [staysWith, used])

/-- The runs agree step by step, the second without the unused labels. -/
theorem removeUnusedLabels_simulates : Machine.Simulates (machine (nodeEnv gate exec) nodes)
      (machine (nodeEnv gate exec) (removeUnusedLabels nodes))
      (fun s t => t = { s with rest := s.rest.filter (staysWith (targets nodes)) } ∧
        s.rest <:+ nodes ∧ (machine (nodeEnv gate exec) nodes).Always (LandsOnUsed nodes) s)
      (fun s => s.rest.length) := by
  refine .of_answers (fun now move => ⟨step_suffix now.1 move, now.2.step move⟩) ?_
  rintro s _ rfl ⟨inside, always⟩
  cases head : s.rest with
  | nil =>
    rw [next_nil head]
    exact ⟨_, .refl, next_nil rfl, by simp only [head]⟩
  | cons node rest =>
    by_cases stays : staysWith (targets nodes) node = true
    · rw [filter_cons_of_pos stays]
      exact .of_map _ .refl (next_stays inside head) (by simp only [head, filter_cons_of_pos stays]) fun _ _ => rfl
    · -- the label is gone from the second program; the first one passes it
      obtain ⟨name, rfl, -⟩ := not_staysWith_iff.mp stays
      have awake : s.skipping = false := by
        by_contra asleep
        exact stays (always.here (by simpa using asleep) _ (by simp [head]))
      rw [next_label head rfl, filter_cons_of_neg stays]
      exact .inr ⟨by rw [awake], by simp [head]⟩

/-- In a run where no false gate lands on a label that no jump goes to, removing such labels changes nothing. -/
theorem removeUnusedLabels_behaviour {s : S}
    (used : (machine (nodeEnv gate exec) nodes).Always (LandsOnUsed nodes) (start nodes s)) :
    SameBehaviour (nodeEnv gate exec) s nodes (removeUnusedLabels nodes) :=
  sameBehaviour_of_simulates removeUnusedLabels_simulates (by rintro s t ⟨rfl, -⟩; rfl) ⟨rfl, suffix_rfl, used⟩

/-- One gate runs on through an unused label, others land on a used one. -/
theorem removeUnusedLabels_behaviour_passed : SameBehaviour (nodeEnv (fun _ node => .ok (node = .gate "x" "==" "1", ()))
        (fun _ _ => .ok () : Unit → ASTNode → Except Empty Unit)) ()
      [.gate "x" "==" "1", .label "u", .next "a", .gate "y" "==" "1", .next "b", .label "l",
        .next "c", .gate "z" "==" "1", .jmp "l"]
      (removeUnusedLabels [.gate "x" "==" "1", .label "u", .next "a", .gate "y" "==" "1", .next "b",
        .label "l", .next "c", .gate "z" "==" "1", .jmp "l"]) :=
  removeUnusedLabels_behaviour (Machine.always_of_check 20 (by decide))

/-- A false gate lands on a label no jump goes to; without the label, the node after it is skipped too. -/
theorem removeUnusedLabels_changes : ¬ SameBehaviour (nodeEnv (fun _ _ => .ok (false, ()))
        (fun _ _ => .ok () : Unit → ASTNode → Except Empty Unit)) ()
      [.gate "x" "==" "1", .next "a", .label "u", .next "b"]
      (removeUnusedLabels [.gate "x" "==" "1", .next "a", .label "u", .next "b"]) :=
  not_sameBehaviour (.ok (), [.next "b"]) (.ok (), []) (Machine.exists_run_iff.mp ⟨10, rfl⟩)
    (Machine.exists_run_iff.mp ⟨10, rfl⟩) (by decide)

end FlowRulZ.Optimizer
