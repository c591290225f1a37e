import FlowRulZ.Dsl.Flow
import FlowRulZ.Dsl.Optimizer

/-! # Removing dead code

The pass deletes what follows a drop or a jump up to the next label or jump, and it
holds labels back until a node that is kept.  So a false gate may land on a gate that
is deleted, and a label right before a drop or a jump moves behind it.  In a run that
meets none of these, the optimized program does the same.
-/

namespace FlowRulZ.Optimizer

open List removeDeadCode

open FlowRulZ.Flow

def isLabel : ASTNode → Bool
  | .label _ => true
  | _ => false

/-- Control does not go on to the node after a drop or a jump. -/
def isExit : ASTNode → Bool
  | .drop | .jmp _ => true
  | _ => false

def dies (dead : Bool) : ASTNode → Bool
  | .label _ => false
  | .jmp _ => !dead
  | .drop => true
  | _ => dead

def deadAfter (pre : List ASTNode) : Bool := pre.foldl dies false

def nextNode (nodes : List ASTNode) : Option ASTNode := nodes.find? fun node => !isLabel node

section Loop

variable {node : ASTNode} {pending rest : List ASTNode}

theorem isExit_cases (exit : isExit node = true) : node = .drop ∨ ∃ target, node = .jmp target := by
  cases node with
  | drop => exact .inl rfl
  | jmp target => exact .inr ⟨target, rfl⟩
  | _ => cases exit

theorem isLabel_cases (label : isLabel node = true) : ∃ name, node = .label name := by
  cases node with
  | label name => exact ⟨name, rfl⟩
  | _ => cases label

theorem dies_false : dies false node = isExit node := by
  cases node <;> rfl

theorem control_ne_gate (exit : isExit node = true) : node.control ≠ .gate := by
  rcases isExit_cases exit with rfl | ⟨target, rfl⟩ <;> nofun

theorem control_ne_label (notLabel : isLabel node = false) (name : String) : node.control ≠ .label name := by
  intro kind
  rw [ASTNode.control_eq_label.mp kind] at notLabel
  cases notLabel

theorem isLabel_of_isExit (exit : isExit node = true) : isLabel node = false := by
  rcases isExit_cases exit with rfl | ⟨target, rfl⟩ <;> rfl

theorem go_label (name : String) : go false pending (.label name :: rest) =
      go false (pending ++ [ASTNode.label name]) rest := by
  simp [go]

theorem go_exit (exit : isExit node = true) : go false pending (node :: rest) = node :: go true pending rest := by
  rcases isExit_cases exit with rfl | ⟨target, rfl⟩ <;> simp [go]

theorem go_other (notLabel : isLabel node = false) (notExit : isExit node = false) :
    go false pending (node :: rest) = pending ++ node :: go false [] rest := by
  cases node with
  | label => cases notLabel
  | drop | jmp => cases notExit
  | _ => simp [go]

theorem go_dead : go true pending (node :: rest) =
      if dies true node then go true pending rest
      else pending ++ node :: go false [] rest := by
  cases node <;> simp [go, dies]

/-- Labels held back come out if a node that is kept follows. -/
theorem go_flush (found : nextNode rest = some node) (notExit : isExit node = false) :
    go false pending rest = pending ++ go false [] rest := by
  induction rest generalizing pending with
  | nil => cases found
  | cons first rest ih =>
    by_cases label : isLabel first = true
    · have later : nextNode rest = some node := by simpa [nextNode, label] using found
      cases first with
      | label name =>
        have one : go false [.label name] rest = [.label name] ++ go false [] rest := ih later
        rw [go_label, go_label, ih later, nil_append, one, append_assoc]
      | _ => cases label
    · have same : first = node := by simpa [nextNode, label] using found
      subst same
      have notLabel : isLabel first = false := by simpa using label
      rw [go_other notLabel notExit, go_other notLabel notExit, nil_append]

theorem go_labels (labels : ∀ node ∈ rest, isLabel node = true) : go false pending rest = [] := by
  induction rest generalizing pending with
  | nil => rfl
  | cons first rest ih =>
    cases first with
    | label name =>
      exact ih fun node inside => labels node (mem_cons_of_mem _ inside)
    | _ => exact absurd (labels _ mem_cons_self) (by simp [isLabel])

end Loop

section Labels

variable {target : String} {pre items rest pending : List ASTNode}

theorem deadAfter_append (node : ASTNode) : deadAfter (pre ++ [node]) = dies (deadAfter pre) node := by
  simp [deadAfter]

theorem fromLabel_of_notMem (missing : .label target ∉ items) :
    fromLabel ASTNode.control target (items ++ rest) = fromLabel ASTNode.control target rest := by
  induction items with
  | nil => rfl
  | cons item items ih =>
    rw [mem_cons, not_or] at missing
    have other : item.control ≠ .label target := fun same =>
      missing.1 (ASTNode.control_eq_label.mp same).symm
    rw [cons_append, fromLabel, if_neg other, ih missing.2]

theorem fromLabel_here : fromLabel ASTNode.control target (.label target :: rest) = .label target :: rest := if_pos rfl

theorem fromLabel_split {nodes : List ASTNode} {item : ASTNode}
    (found : fromLabel ASTNode.control target nodes = item :: rest) :
    item = .label target ∧ ∃ pre, nodes = pre ++ item :: rest ∧ .label target ∉ pre := by
  induction nodes with
  | nil => cases found
  | cons node nodes ih =>
    by_cases here : node = .label target
    · subst here
      rw [fromLabel_here] at found
      obtain ⟨rfl, rfl⟩ := found
      exact ⟨rfl, [], rfl, not_mem_nil⟩
    · have other : node.control ≠ .label target := mt ASTNode.control_eq_label.mp here
      rw [fromLabel, if_neg other] at found
      obtain ⟨same, pre, rfl, fresh⟩ := ih found
      refine ⟨same, node :: pre, rfl, ?_⟩
      rw [mem_cons, not_or]
      exact ⟨fun eq => here eq.symm, fresh⟩

/-- A label after dead code, or before a node that is kept, is where it was. -/
def LabelStays (dead : Bool) (rest : List ASTNode) : Prop :=
  dead = true ∨ ∃ node, nextNode rest = some node ∧ isExit node = false

/-- The loop looks like this from a label on that stays. -/
theorem fromLabel_go {dead : Bool} (stays : LabelStays (pre.foldl dies dead) rest)
    (fresh : .label target ∉ pre) (fresh' : .label target ∉ pending) :
    fromLabel ASTNode.control target (go dead pending (pre ++ .label target :: rest)) =
      .label target :: go false [] rest := by
  induction pre generalizing dead pending with
  | nil =>
    cases dead with
    | true =>
      rw [nil_append, go_dead, if_neg (by simp [dies]), fromLabel_of_notMem fresh', fromLabel_here]
    | false =>
      obtain ⟨node, found, notExit⟩ := stays.resolve_left Bool.false_ne_true
      rw [nil_append, go_label, go_flush found notExit, append_assoc,
        fromLabel_of_notMem fresh', singleton_append, fromLabel_here]
  | cons node pre ih =>
    rw [mem_cons, not_or] at fresh
    rw [foldl_cons] at stays
    have passed : ∀ tail : List ASTNode, fromLabel ASTNode.control target (node :: tail) =
        fromLabel ASTNode.control target tail := by
      intro tail
      have single : .label target ∉ [node] := by simpa using fresh.1
      exact fromLabel_of_notMem single
    cases dead with
    | true =>
      rw [cons_append, go_dead]
      split
      · rename_i still
        rw [still] at stays
        exact ih stays fresh.2 fresh'
      · rename_i wakes
        rw [Bool.eq_false_iff.mpr wakes] at stays
        rw [fromLabel_of_notMem fresh', passed]
        exact ih stays fresh.2 not_mem_nil
    | false =>
      by_cases label : isLabel node = true
      · cases node with
        | label name =>
          refine ih stays fresh.2 ?_
          rw [mem_append, mem_singleton, not_or]
          exact ⟨fresh', fresh.1⟩
        | _ => cases label
      · by_cases exit : isExit node = true
        · rw [dies_false, exit] at stays
          rw [cons_append, go_exit exit, passed]
          exact ih stays fresh.2 fresh'
        · rw [dies_false, Bool.eq_false_iff.mpr exit] at stays
          rw [cons_append, go_other (by simpa using label) (by simpa using exit), fromLabel_of_notMem fresh', passed]
          exact ih stays fresh.2 not_mem_nil

end Labels

def before (nodes rest : List ASTNode) : List ASTNode := nodes.take (nodes.length - rest.length)

theorem before_append (pre rest : List ASTNode) : before (pre ++ rest) rest = pre := by
  simp [before]

variable {S E : Type*}

/-- A false gate that led here did not lead to a deleted gate or to a label that moves, and a jump taken here goes to a
label that stays. -/
def LandsSafely (nodes : List ASTNode) (s : State ASTNode S) : Prop :=
  match s.rest, s.skipping with
  | .gate .. :: _, true => deadAfter (before nodes s.rest) = false
  | .label _ :: rest, true =>
    deadAfter (before nodes s.rest) = true ∨ ∀ node ∈ nextNode rest, isExit node = false
  | .jmp target :: _, false =>
    match fromLabel ASTNode.control target nodes with
    | [] => False
    | label :: rest => LabelStays (deadAfter (before nodes (label :: rest))) rest
  | _, _ => True

instance (dead : Bool) (rest : List ASTNode) : Decidable (LabelStays dead rest) :=
  inferInstanceAs (Decidable (dead = true ∨ ∃ node ∈ nextNode rest, isExit node = false))

instance (nodes : List ASTNode) : DecidablePred (LandsSafely (S := S) nodes) := fun s => by
  unfold LandsSafely
  split
  · infer_instance
  · infer_instance
  · split <;> infer_instance
  · infer_instance

/-- How the state of the optimized run follows that of the original one. -/
inductive Follows (nodes : List ASTNode) (s : State ASTNode S) : State ASTNode S → Prop where
  /-- in live code, with some labels still to be passed -/
  | alive (pre pending : List ASTNode) (here : nodes = pre ++ s.rest) (live : deadAfter pre = false)
      (labels : ∀ node ∈ pending, isLabel node = true) (none : s.skipping = true → pending = []) :
      Follows nodes s { s with rest := removeDeadCode.go false pending s.rest }
  /-- skipping through code that is deleted -/
  | dead (pre : List ASTNode) (here : nodes = pre ++ s.rest) (dead : deadAfter pre = true)
      (asleep : s.skipping = true) : Follows nodes s { s with rest := removeDeadCode.go true [] s.rest }
  /-- after a jump -/
  | label (pre : List ASTNode) (name : String) (rest : List ASTNode)
      (here : nodes = pre ++ .label name :: rest) (head : s.rest = .label name :: rest) :
      Follows nodes s { s with rest := .label name :: removeDeadCode.go false [] rest }
  /-- among the labels at the end -/
  | ended (skipping : Bool) (labels : ∀ node ∈ s.rest, isLabel node = true) :
      Follows nodes s { s with rest := [], skipping := skipping }

variable {gate : S → ASTNode → Except E (Bool × S)} {exec : S → ASTNode → Except E S}
  {nodes : List ASTNode} {s s' : State ASTNode S}

theorem passes_labels (awake : s.skipping = false) {labels : List ASTNode}
    (all : ∀ node ∈ labels, isLabel node = true) (rest : List ASTNode) :
    (machine (nodeEnv gate exec) nodes).Reaches { s with rest := labels ++ rest } { s with rest := rest } := by
  induction labels with
  | nil => exact .refl
  | cons label labels ih =>
    cases label with
    | label name =>
      refine (ih fun node inside => all node (mem_cons_of_mem _ inside)).head ?_
      have passed : (machine (nodeEnv gate exec) nodes).next { s with rest := .label name :: (labels ++ rest) } =
          .inl { s with rest := labels ++ rest, skipping := false } := next_label rfl rfl
      rw [awake] at passed ⊢
      exact passed
    | _ => exact absurd (all _ mem_cons_self) (by simp [isLabel])

variable {node : ASTNode}

theorem here_next {pre rest : List ASTNode} (here : nodes = pre ++ s.rest)
    (head : s.rest = node :: rest) : nodes = (pre ++ [node]) ++ rest := by
  rw [here, head]
  simp

theorem reaches_kept {pending rest : List ASTNode} (head : s.rest = node :: rest)
    (notLabel : isLabel node = false) (notExit : isExit node = false)
    (labels : ∀ node ∈ pending, isLabel node = true) (none : s.skipping = true → pending = []) :
    (machine (nodeEnv gate exec) nodes).Reaches { s with rest := go false pending s.rest }
      { s with rest := node :: go false [] rest } := by
  rw [head, go_other notLabel notExit]
  by_cases asleep : s.skipping = true
  · rw [none asleep]
    exact .refl
  · exact passes_labels (by simpa using asleep) labels _

/-- A move of the original run is answered: by moves of the optimized one, or by none while the original run passes a
node. -/
def Answered (gate : S → ASTNode → Except E (Bool × S)) (exec : S → ASTNode → Except E S)
    (nodes : List ASTNode) (s s' t : State ASTNode S) : Prop :=
  (∃ t', Relation.TransGen (machine (nodeEnv gate exec) (removeDeadCode nodes)).Step t t' ∧ Follows nodes s' t') ∨
  (Follows nodes s' t ∧ s'.rest.length < s.rest.length)

variable {pre pending rest : List ASTNode}

theorem answered_alive_label {name : String}
    (safe : LandsSafely nodes s) (here : nodes = pre ++ s.rest) (live : deadAfter pre = false)
    (labels : ∀ node ∈ pending, isLabel node = true) (none : s.skipping = true → pending = [])
    (head : s.rest = .label name :: rest) :
    Answered gate exec nodes s { s with rest := rest, skipping := false }
      { s with rest := go false pending s.rest } := by
  have after : deadAfter (pre ++ [ASTNode.label name]) = false := by
    rw [deadAfter_append]
    rfl
  rw [head, go_label]
  by_cases asleep : s.skipping = true
  · rw [none asleep]
    simp only [LandsSafely, head, asleep] at safe
    rw [← head, here, before_append, live] at safe
    have notExit := safe.resolve_left Bool.false_ne_true
    cases found : nextNode rest with
    | none =>
      have all : ∀ node ∈ rest, isLabel node = true := by
        simpa [nextNode] using found
      rw [go_labels all]
      exact .inr ⟨.ended s.skipping all, by simp [head]⟩
    | some node =>
      rw [go_flush found (notExit node found)]
      refine .inl ⟨_, .single (next_label rfl rfl), ?_⟩
      exact .alive (pre ++ [ASTNode.label name]) [] (here_next here head) after nofun nofun
  · have awake : s.skipping = false := by simpa using asleep
    refine .inr ⟨?_, by simp [head]⟩
    have follows := Follows.alive (s := { s with rest := rest, skipping := false })
      (pre ++ [ASTNode.label name]) (pending ++ [ASTNode.label name]) (here_next here head) after
      (by simpa [or_imp, forall_and, isLabel] using labels) nofun
    rw [awake]
    exact follows

theorem answered_jump {rest rest' : List ASTNode} {target : String}
    (safe : LandsSafely nodes s) (head : s.rest = .jmp target :: rest)
    (awake : s.skipping = false) :
    Answered gate exec nodes s { s with rest := seek ASTNode.control target nodes }
      { s with rest := .jmp target :: rest' } := by
  simp only [LandsSafely, head, awake] at safe
  cases found : fromLabel ASTNode.control target nodes with
  | nil =>
    rw [found] at safe
    exact safe.elim
  | cons label more =>
    obtain ⟨rfl, pre, split, fresh⟩ := fromLabel_split found
    simp only [found] at safe
    rw [split, before_append] at safe
    have found' : fromLabel ASTNode.control target (removeDeadCode nodes) = .label target :: go false [] more := by
      rw [split]
      exact fromLabel_go safe fresh not_mem_nil
    refine .inl ⟨_, .single (next_node_jmp rfl awake), ?_⟩
    rw [seek_of_found found, seek_of_found found']
    exact .label pre target more split rfl

abbrev Owes (gate : S → ASTNode → Except E (Bool × S)) (exec : S → ASTNode → Except E S) (nodes : List ASTNode)
    (s t : State ASTNode S) : Prop :=
  (machine (nodeEnv gate exec) (removeDeadCode nodes)).Answers (Follows nodes) (fun s => s.rest.length) s t
    ((machine (nodeEnv gate exec) nodes).next s)

theorem owes_exit (safe : LandsSafely nodes s) (here : nodes = pre ++ s.rest) (live : deadAfter pre = false)
    (labels : ∀ node ∈ pending, isLabel node = true) (none : s.skipping = true → pending = [])
    (head : s.rest = node :: rest) (exit : isExit node = true) :
    Owes gate exec nodes s { s with rest := go false pending s.rest } := by
  have follows := Follows.alive pre pending here live labels none
  have after : deadAfter (pre ++ [node]) = true := by rw [deadAfter_append, live, dies_false, exit]
  rw [head, go_exit exit] at follows ⊢
  by_cases asleep : s.skipping = true
  · have passed {program : List ASTNode} {t : State ASTNode S} {tail : List ASTNode} (skips : t.skipping = true)
        (first : t.rest = node :: tail) : (machine (nodeEnv gate exec) program).next t = .inl { t with rest := tail } :=
      next_skip first skips (control_ne_gate exit) (control_ne_label (isLabel_of_isExit exit))
    rw [Owes, passed asleep head, none asleep]
    exact .inl ⟨_, .single (passed asleep rfl), .dead (pre ++ [node]) (here_next here head) after asleep⟩
  · have awake : s.skipping = false := by simpa using asleep
    cases node with
    | drop =>
      rw [Owes, next_drop head rfl awake]
      exact ⟨_, .refl, next_drop rfl rfl awake, follows⟩
    | jmp target =>
      rw [Owes, next_node_jmp head awake]
      exact answered_jump safe head awake
    | _ => cases exit

theorem owes_move {t : State ASTNode S} (noJump : s.skipping = true ∨ ∀ target, node.control ≠ .jmp target)
    (here : nodes = pre ++ s.rest) (head : s.rest = node :: rest) (after : deadAfter (pre ++ [node]) = false)
    (path : (machine (nodeEnv gate exec) (removeDeadCode nodes)).Reaches t { s with rest := node :: go false [] rest })
    (follows : Follows nodes s { s with rest := node :: go false [] rest }) :
    Owes gate exec nodes s t := by
  refine .of_map _ path (next_same_head noJump head) follows fun s' move => ?_
  have same : s'.rest = rest := step_rest noJump head move
  rw [← same]
  exact .alive (pre ++ [node]) [] (same ▸ here_next here head) after (forall_mem_nil _) fun _ => rfl

theorem owes_dead {pre rest : List ASTNode}
    (safe : LandsSafely nodes s) (here : nodes = pre ++ s.rest) (dead : deadAfter pre = true)
    (asleep : s.skipping = true) (head : s.rest = node :: rest) :
    Owes gate exec nodes s { s with rest := go true [] s.rest } := by
  have follows := Follows.dead pre here dead asleep
  have after : deadAfter (pre ++ [node]) = dies true node := by rw [deadAfter_append, dead]
  rw [head, go_dead] at follows ⊢
  by_cases still : dies true node = true
  · have notGate : node.control ≠ .gate := by
      intro kind
      cases node with
      | gate field op value =>
        simp only [LandsSafely, head, asleep] at safe
        rw [← head, here, before_append, dead] at safe
        cases safe
      | _ => cases kind
    have notLabel : ∀ name, node.control ≠ .label name := by
      intro name kind
      rw [ASTNode.control_eq_label.mp kind] at still
      cases still
    rw [Owes, next_skip head asleep notGate notLabel, if_pos still]
    exact .inr ⟨.dead (pre ++ [node]) (here_next here head) (after.trans still) asleep, by simp [head]⟩
  · rw [if_neg still] at follows ⊢
    exact owes_move (.inl asleep) here head (after.trans (Bool.eq_false_iff.mpr still)) .refl follows

theorem removeDeadCode_simulates : Machine.Simulates (machine (nodeEnv gate exec) nodes)
      (machine (nodeEnv gate exec) (removeDeadCode nodes))
      (fun s t => Follows nodes s t ∧ (machine (nodeEnv gate exec) nodes).Always (LandsSafely nodes) s)
      (fun s => s.rest.length) := by
  refine .of_answers (fun always move => always.step move) ?_
  intro s t follows always
  cases head : s.rest with
  | nil =>
    rw [next_nil head]
    refine ⟨t, .refl, ?_, follows⟩
    cases follows with
    | label pre name more here head' => cases head.symm.trans head'
    | alive | dead | ended => exact next_nil (by simp [head, go])
  | cons node rest =>
    cases follows with
    | alive pre pending here live labels none =>
      by_cases label : isLabel node = true
      · obtain ⟨name, rfl⟩ := isLabel_cases label
        rw [next_label head rfl]
        exact answered_alive_label always.here here live labels none head
      by_cases exit : isExit node = true
      · exact owes_exit always.here here live labels none head exit
      · have notLabel : isLabel node = false := by simpa using label
        have notExit : isExit node = false := by simpa using exit
        have after : deadAfter (pre ++ [node]) = false := by rw [deadAfter_append, live, dies_false, notExit]
        have follows := Follows.alive (s := s) pre [] here live (forall_mem_nil _) fun _ => rfl
        rw [head, go_other notLabel notExit] at follows
        exact owes_move (.inr fun target kind => by simp [ASTNode.control_eq_jmp.mp kind, isExit] at notExit) here head after
          (reaches_kept head notLabel notExit labels none) follows
    | dead pre here dead asleep => exact owes_dead always.here here dead asleep head
    | label pre name more here head' =>
      rw [next_label head' rfl]
      refine .inl ⟨_, .single (next_label rfl rfl), ?_⟩
      refine .alive (pre ++ [ASTNode.label name]) [] (by simpa using here) ?_ (forall_mem_nil _) fun _ => rfl
      rw [deadAfter_append]
      rfl
    | ended skipping labels =>
      rw [head] at labels
      obtain ⟨name, rfl⟩ := isLabel_cases (labels node mem_cons_self)
      rw [next_label head rfl]
      refine .inr ⟨.ended skipping ?_, by simp [head]⟩
      exact fun node inside => labels node (mem_cons_of_mem _ inside)

/-- Removing dead code keeps every run in which no false gate lands on a deleted gate or on a label right before a drop
or a jump, and no jump goes to such a label or to one at the end. -/
theorem removeDeadCode_behaviour {s : S}
    (safe : (machine (nodeEnv gate exec) nodes).Always (LandsSafely nodes) (start nodes s)) :
    SameBehaviour (nodeEnv gate exec) s nodes (removeDeadCode nodes) := by
  refine sameBehaviour_of_simulates removeDeadCode_simulates ?_ ⟨?_, safe⟩
  · intro s t related
    obtain ⟨follows, -⟩ := related
    cases follows <;> rfl
  · exact .alive [] [] rfl rfl nofun fun _ => rfl

/-- A gate that is true and one that skips over a drop to a label jumped to before. -/
theorem removeDeadCode_behaviour_skipped : SameBehaviour (nodeEnv (fun _ node => .ok (node = .gate "x" "==" "1", ()))
        (fun _ _ => .ok () : Unit → ASTNode → Except Empty Unit)) ()
      [.gate "x" "==" "1", .jmp "l", .next "a", .label "l", .next "b", .gate "y" "==" "1", .drop,
        .next "c", .label "m", .next "d"]
      (removeDeadCode [.gate "x" "==" "1", .jmp "l", .next "a", .label "l", .next "b",
        .gate "y" "==" "1", .drop, .next "c", .label "m", .next "d"]) :=
  removeDeadCode_behaviour (Machine.always_of_check 20 (by decide))

/-- A false gate lands on a gate that the pass deletes. -/
theorem removeDeadCode_changes : ¬ SameBehaviour (nodeEnv (fun _ node => .ok (node = .gate "y" "==" "1", ()))
        (fun _ _ => .ok () : Unit → ASTNode → Except Empty Unit)) ()
      [.gate "x" "==" "1", .drop, .gate "y" "==" "1", .next "a"]
      (removeDeadCode [.gate "x" "==" "1", .drop, .gate "y" "==" "1", .next "a"]) :=
  not_sameBehaviour (.ok (), [.next "a"]) (.ok (), []) (Machine.exists_run_iff.mp ⟨10, rfl⟩)
    (Machine.exists_run_iff.mp ⟨10, rfl⟩) (by decide)

end FlowRulZ.Optimizer
