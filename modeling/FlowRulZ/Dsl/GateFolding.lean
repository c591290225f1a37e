import FlowRulZ.Dsl.Flow
import FlowRulZ.Dsl.Optimizer

/-! # Folding constant gates

The pass decides a gate over two numbers by floats.  A true gate disappears, so that a
gate before it skips further; a false one becomes a drop, which ends the run where the
gate would have skipped to the next gate or label.
-/

namespace FlowRulZ.Optimizer

open FlowRulZ.Flow

def compare (op : String) (x y : ℚ) : Option Bool :=
  match op with
  | "==" => some (x = y)
  | "!=" => some (x ≠ y)
  | ">" => some (y < x)
  | "<" => some (x < y)
  | ">=" => some (y ≤ x)
  | "<=" => some (x ≤ y)
  | _ => none

/-- The arithmetic truth value of a gate whose operands are numeric literals. -/
def truth : ASTNode → Option Bool
  | .gate field op value =>
    match Literal.parse field, Literal.parse value with
    | some (.fin x), some (.fin y) => compare op x y
    | _, _ => none
  | _ => none

def foldNode : ASTNode → List ASTNode → Option Bool
  | .gate field op value, rest => foldGate field op value rest
  | _, _ => none

theorem simplifyGates_cons (node : ASTNode) (rest : List ASTNode) :
    simplifyGates (node :: rest) =
      match foldNode node rest with
      | some true => simplifyGates rest
      | some false => .drop :: simplifyGates rest
      | none => node :: simplifyGates rest := by
  cases node <;> rfl

def isStop (node : ASTNode) : Bool :=
  match node.control with
  | .gate | .label _ => true
  | _ => false

variable {S E : Type*}

/-- If the gate at hand is folded, then floats decide it as arithmetic does; a true one was not skipped to; and a false
one was skipped to, or no gate and no label follows. -/
def FoldsSafely (s : State ASTNode S) : Prop :=
  match s.rest with
  | [] => True
  | node :: rest =>
    ∀ verdict ∈ foldNode node rest, truth node = some verdict ∧
      if verdict then s.skipping = false
      else s.skipping = true ∨ ∀ later ∈ rest, isStop later = false

instance : DecidablePred (FoldsSafely (S := S)) := fun s =>
  match s with
  | ⟨[], _, _, _⟩ => isTrue trivial
  | ⟨node :: rest, _, _, _⟩ => inferInstanceAs (Decidable (∀ verdict ∈ foldNode node rest, _))

variable {gate : S → ASTNode → Except E (Bool × S)} {exec : S → ASTNode → Except E S} {nodes : List ASTNode}

theorem fromLabel_simplifyGates (target : String) (nodes : List ASTNode) :
    fromLabel ASTNode.control target (simplifyGates nodes) =
      simplifyGates (fromLabel ASTNode.control target nodes) := by
  induction nodes with
  | nil => rfl
  | cons node rest ih =>
    by_cases here : node = .label target
    · subst here
      simp [simplifyGates_cons, foldNode, fromLabel, ASTNode.control]
    · have other : node.control ≠ .label target :=
        mt ASTNode.control_eq_label.mp here
      have drops : ASTNode.drop.control ≠ .label target := by
        rintro ⟨⟩
      rw [simplifyGates_cons, fromLabel, if_neg other]
      split
      · exact ih
      · rw [fromLabel, if_neg drops, ih]
      · rw [fromLabel, if_neg other, ih]

theorem seek_simplifyGates (target : String) : seek ASTNode.control target (simplifyGates nodes) =
      simplifyGates (seek ASTNode.control target nodes) := by
  apply seek_commutes (fromLabel_simplifyGates target nodes) rfl
  intro node rest here
  rw [ASTNode.control_eq_label.mp here]
  exact List.cons_ne_nil _ _

theorem next_passed {s : State ASTNode S} {node : ASTNode} {rest program : List ASTNode}
    (head : s.rest = node :: rest) (asleep : s.skipping = true) (noStop : isStop node = false) :
    (machine (nodeEnv gate exec) program).next s = .inl { s with rest := rest } := by
  apply next_skip head asleep
  · intro kind
    rw [isStop, show node.control = .gate from kind] at noStop
    cases noStop
  · intro name kind
    rw [isStop, show node.control = .label name from kind] at noStop
    cases noStop

/-- The first run skips to the end, the second is at the drop that stands for the gate. -/
structure Ending (s t : State ASTNode S) : Prop where
  skipping : s.skipping = true
  noStop : ∀ node ∈ s.rest, isStop node = false
  dropping : ∃ rest, t = { s with rest := .drop :: rest, skipping := false }

section

variable (arithmetic : ∀ s node verdict, truth node = some verdict → gate s node = .ok (verdict, s))
include arithmetic

/-- At a folded node, the environment tells what the pass takes the gate for. -/
theorem FoldsSafely.folded {s : State ASTNode S} (safe : FoldsSafely s) {node : ASTNode} {rest : List ASTNode}
    {verdict : Bool} (head : s.rest = node :: rest) (folds : foldNode node rest = some verdict)
    (program : List ASTNode) :
    (machine (nodeEnv gate exec) program).next s = .inl { s with rest := rest, skipping := !verdict } ∧
      if verdict then s.skipping = false
      else s.skipping = true ∨ ∀ later ∈ rest, isStop later = false := by
  rw [FoldsSafely, head] at safe
  obtain ⟨exact, landing⟩ := safe verdict folds
  cases node with
  | gate field op value =>
    refine ⟨?_, landing⟩
    rw [next_gate head rfl (arithmetic s.env _ verdict exact)]
  | _ => cases folds

theorem simplifyGates_simulates : Machine.Simulates (machine (nodeEnv gate exec) nodes)
      (machine (nodeEnv gate exec) (simplifyGates nodes))
      (fun s t => (t = { s with rest := simplifyGates s.rest } ∨ Ending s t) ∧
        (machine (nodeEnv gate exec) nodes).Always FoldsSafely s)
      (fun s => s.rest.length) := by
  refine .of_answers (fun always move => always.step move) ?_
  intro s t related always
  cases head : s.rest with
  | nil =>
    rw [next_nil head]
    refine ⟨t, .refl, ?_, related⟩
    rcases related with rfl | ⟨-, -, rest', rfl⟩
    · exact next_nil (by rw [head]; rfl)
    · exact next_drop rfl rfl rfl
  | cons node rest =>
    rcases related with rfl | ⟨asleep, noStop, rest', rfl⟩
    · cases folds : foldNode node rest with
      | none =>
        have kept : simplifyGates s.rest = node :: simplifyGates rest := by
          simp only [head, simplifyGates_cons, folds]
        rw [kept]
        exact .of_map _ .refl (next_kept simplifyGates head fun _ target _ => seek_simplifyGates target)
          (.inl (by rw [kept])) fun _ _ => .inl rfl
      | some verdict =>
        obtain ⟨moved, landing⟩ := always.here.folded arithmetic head folds nodes
        rw [moved]
        simp only [head, simplifyGates_cons, folds]
        cases verdict with
        | true =>
          refine .inr ⟨.inl ?_, by simp [head]⟩
          simp [show s.skipping = false from landing]
        | false =>
          by_cases asleep : s.skipping = true
          · refine .inl ⟨{ s with rest := simplifyGates rest }, .single ?_, .inl ?_⟩
            · exact next_skip rfl asleep (by rintro ⟨⟩) (by rintro _ ⟨⟩)
            · simp [asleep]
          · have noStop := Or.resolve_left landing asleep
            refine .inr ⟨.inr ⟨rfl, noStop, simplifyGates rest, ?_⟩, by simp [head]⟩
            simp [Bool.eq_false_iff.mpr asleep]
    · rw [head] at noStop
      rw [next_passed head asleep (noStop node List.mem_cons_self)]
      refine .inr ⟨.inr ⟨asleep, ?_, rest', rfl⟩, by simp [head]⟩
      exact fun node inside => noStop node (List.mem_cons_of_mem _ inside)

end

/-- If literal gates have their arithmetic truth value, then folding keeps every run in which folded gates are decided
by floats as by arithmetic, a true one is never skipped to, and a false one is skipped to or followed by no gate and no
label. -/
theorem simplifyGates_behaviour
    (arithmetic : ∀ s node verdict, truth node = some verdict → gate s node = .ok (verdict, s))
    {s : S} (safe : (machine (nodeEnv gate exec) nodes).Always FoldsSafely (start nodes s)) :
    SameBehaviour (nodeEnv gate exec) s nodes (simplifyGates nodes) :=
  sameBehaviour_of_simulates (simplifyGates_simulates arithmetic)
    (by rintro s t ⟨rfl | ⟨-, -, -, rfl⟩, -⟩ <;> rfl) ⟨.inl rfl, safe⟩

def arithmeticGate (_ : Unit) (node : ASTNode) : Except Empty (Bool × Unit) :=
  .ok ((truth node).getD true, ())

theorem simplifyGates_behaviour_last : SameBehaviour (nodeEnv arithmeticGate fun _ _ => .ok ()) ()
      [.gate "2" ">" "1", .next "a", .gate "1" "==" "2", .next "b"]
      (simplifyGates [.gate "2" ">" "1", .next "a", .gate "1" "==" "2", .next "b"]) :=
  simplifyGates_behaviour (by intro s node verdict known; rw [arithmeticGate, known]; rfl)
    (Machine.always_of_check 10 (by decide +kernel))

/-- A false constant gate ends the run once it is folded, though a gate follows it. -/
theorem simplifyGates_changes :
    (∀ s node verdict, truth node = some verdict → arithmeticGate s node = .ok (verdict, s)) ∧
    ¬ SameBehaviour (nodeEnv arithmeticGate fun _ _ => .ok ()) ()
      [.gate "1" "==" "2", .next "a", .gate "x" "==" "1", .next "b"]
      (simplifyGates [.gate "1" "==" "2", .next "a", .gate "x" "==" "1", .next "b"]) := by
  refine ⟨by intro s node verdict known; rw [arithmeticGate, known]; rfl, ?_⟩
  apply not_sameBehaviour (.ok (), [.next "b"]) (.ok (), [])
  · exact Machine.exists_run_iff.mp ⟨10, by decide +kernel⟩
  · exact Machine.exists_run_iff.mp ⟨10, by decide +kernel⟩
  · decide

end FlowRulZ.Optimizer
