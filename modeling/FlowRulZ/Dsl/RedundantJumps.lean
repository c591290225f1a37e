import FlowRulZ.Dsl.Flow
import FlowRulZ.Dsl.Optimizer

/-! # Redundant jumps and pipes

`eliminate_redundant_jmps` leaves out a jump to the label right after it, `remove_nops` leaves out
pipes.  Both leave out only nodes at which a run does nothing but go on to the next node, so the
runs agree node by node, whatever gates tell and however often they loop.
-/

namespace FlowRulZ.Optimizer

open List

open FlowRulZ.Flow

variable {S E : Type*}

/-- The node executed in a state, unless it is a pipe, a jump or a label: a gate, or another node
    that is not skipped. -/
def visited (s : State ASTNode S) : List ASTNode :=
  match s.rest with
  | [] => []
  | .pipe :: _ | .jmp _ :: _ | .label _ :: _ => []
  | .gate field op value :: _ => [.gate field op value]
  | node :: _ => if s.skipping then [] else [node]

/-- Two programs visit the same nodes and end alike. -/
def SameCourse (env : Flow.Env ASTNode S E) (s : S) (p q : List ASTNode) : Prop :=
  (∀ nodes, ((machine env p).recording visited).Emits Prod.snd (start p s, []) nodes ↔
    ((machine env q).recording visited).Emits Prod.snd (start q s, []) nodes) ∧
  ∀ result, ((machine env p).recording visited).Halts (start p s, []) result ↔
    ((machine env q).recording visited).Halts (start q s, []) result

theorem SameCourse.trans {env : Flow.Env ASTNode S E} {s : S} {p q r : List ASTNode}
    (first : SameCourse env s p q) (second : SameCourse env s q r) : SameCourse env s p r :=
  ⟨fun nodes => (first.1 nodes).trans (second.1 nodes), fun result => (first.2 result).trans (second.2 result)⟩

def PassesOn (nodes : List ASTNode) (node : ASTNode) (rest : List ASTNode) : Prop :=
  node = .pipe ∨ ∃ target, node = .jmp target ∧ seek ASTNode.control target nodes = rest

structure Prunes (nodes : List ASTNode) (pass : List ASTNode → List ASTNode) : Prop where
  nil : pass [] = []
  cons : ∀ {node rest}, node :: rest <:+ nodes →
    pass (node :: rest) = node :: pass rest ∨ (pass (node :: rest) = pass rest ∧ PassesOn nodes node rest)

section

variable {nodes : List ASTNode} {pass : List ASTNode → List ASTNode} {node : ASTNode} {rest : List ASTNode}
  {target : String} {gate : S → ASTNode → Except E (Bool × S)} {exec : S → ASTNode → Except E S}
  {s : State ASTNode S}

theorem visited_head (head : s.rest = node :: rest) (rest' : List ASTNode) :
    visited s = visited { s with rest := node :: rest' } := by
  simp only [visited, head]
  cases node <;> rfl

theorem PassesOn.next (passes : PassesOn nodes node rest) (head : s.rest = node :: rest) :
    (machine (nodeEnv gate exec) nodes).next s = .inl { s with rest := rest } ∧ visited s = [] := by
  rcases passes with rfl | ⟨target, rfl, sought⟩
  · exact ⟨by simp only [machine, Flow.next, head, nodeEnv, ASTNode.control], by simp only [visited, head]⟩
  · refine ⟨?_, by simp only [visited, head]⟩
    by_cases asleep : s.skipping = true
    · simp only [machine, Flow.next, head, nodeEnv, ASTNode.control, asleep, if_true]
    · rw [next_node_jmp head (by simpa using asleep), sought]

theorem PassesOn.not_label (passes : PassesOn nodes node rest) : node.control ≠ .label target := by
  rcases passes with rfl | ⟨target, rfl, -⟩ <;> simp [ASTNode.control]

theorem Prunes.fromLabel (prunes : Prunes nodes pass) (inside : rest <:+ nodes) :
    fromLabel ASTNode.control target (pass rest) = pass (fromLabel ASTNode.control target rest) := by
  induction rest with
  | nil => rw [prunes.nil, Flow.fromLabel, prunes.nil]
  | cons node rest ih =>
    have later := ih ((suffix_cons node rest).trans inside)
    rcases prunes.cons inside with kept | ⟨pruned, passes⟩
    · by_cases here : node.control = .label target
      · rw [kept, Flow.fromLabel, if_pos here, Flow.fromLabel, if_pos here, kept]
      · rw [kept, Flow.fromLabel, if_neg here, Flow.fromLabel, if_neg here, later]
    · rw [pruned, Flow.fromLabel, if_neg passes.not_label, later]

theorem Prunes.seek (prunes : Prunes nodes pass) :
    seek ASTNode.control target (pass nodes) = pass (seek ASTNode.control target nodes) := by
  have commutes : Flow.fromLabel ASTNode.control target (pass nodes) = _ := prunes.fromLabel suffix_rfl
  rw [Flow.seek, Flow.seek, commutes]
  rcases fromLabel_head ASTNode.control target nodes with missing | ⟨item, rest, found, here⟩
  · rw [missing, prunes.nil, if_pos rfl, if_pos rfl]
  · -- a label that is found is never left out
    have kept : pass (item :: rest) = item :: pass rest := by
      rcases prunes.cons (found ▸ fromLabel_suffix target nodes) with kept | ⟨-, passes⟩
      · exact kept
      · exact absurd here passes.not_label
    rw [found, kept, if_neg (cons_ne_nil _ _), if_neg (cons_ne_nil _ _), kept]

variable (gate exec) in
theorem Prunes.tracks (prunes : Prunes nodes pass) :
    Machine.Tracks (machine (nodeEnv gate exec) nodes) (machine (nodeEnv gate exec) (pass nodes)) visited visited
      (fun s t => t = { s with rest := pass s.rest } ∧ s.rest <:+ nodes) (fun s => s.rest.length) where
  halt := by
    intro s t r related halted
    obtain ⟨rfl, inside⟩ := related
    cases head : s.rest with
    | nil =>
      rw [next_nil head] at halted
      rw [next_nil prunes.nil]
      exact ⟨halted, by simp only [visited, head, prunes.nil]⟩
    | cons node rest =>
      rw [head] at inside
      rcases prunes.cons inside with kept | ⟨-, passes⟩
      · rw [kept]
        refine ⟨?_, visited_head head _⟩
        rw [next_kept pass head fun _ _ _ => prunes.seek, halted]
        rfl
      · rw [(passes.next head).1] at halted
        cases halted
  step := by
    intro s t s' related move
    obtain ⟨rfl, inside⟩ := related
    have inside' := step_suffix inside move
    cases head : s.rest with
    | nil =>
      rw [Machine.Step, next_nil head] at move
      cases move
    | cons node rest =>
      rw [head] at inside
      rcases prunes.cons inside with kept | ⟨pruned, passes⟩
      · rw [kept]
        refine .inl ⟨_, ?_, ⟨rfl, inside'⟩, visited_head head _⟩
        rw [Machine.Step, next_kept pass head fun _ _ _ => prunes.seek, move]
        rfl
      · -- the first program passes on, the second one waits
        have passed : (machine (nodeEnv gate exec) nodes).next s = _ ∧ _ := passes.next head
        obtain ⟨onward, nothing⟩ := passed
        rw [Machine.Step, onward, Sum.inl.injEq] at move
        subst move
        exact .inr ⟨⟨by rw [pruned], inside'⟩, by simp, nothing⟩

theorem Prunes.sameCourse (prunes : Prunes nodes pass) (now : S) :
    SameCourse (nodeEnv gate exec) now nodes (pass nodes) := by
  have sim := (prunes.tracks gate exec).simulates
  have related : (start (pass nodes) now = { start nodes now with rest := pass (start nodes now).rest } ∧
      (start nodes now).rest <:+ nodes) ∧ ([] : List ASTNode) = [] :=
    ⟨⟨rfl, suffix_rfl⟩, rfl⟩
  exact ⟨fun _ => sim.emits_iff (fun _ _ related => related.2) (fun _ _ => Machine.recording_grows) related,
    fun _ => sim.halts_iff related⟩

end

theorem removeNops_prunes (nodes : List ASTNode) : Prunes nodes removeNops where
  nil := rfl
  cons := by
    intro node rest _
    by_cases pipe : node = .pipe
    · exact .inr ⟨by simp [removeNops, pipe], .inl pipe⟩
    · exact .inl (by simp [removeNops, pipe])

theorem eliminateRedundantJmps_cons (node : ASTNode) (rest : List ASTNode) :
    eliminateRedundantJmps (node :: rest) = node :: eliminateRedundantJmps rest ∨
      ∃ target later, node = .jmp target ∧ rest = .label target :: later ∧
        eliminateRedundantJmps (node :: rest) = eliminateRedundantJmps rest := by
  cases node with
  | jmp target =>
    cases rest with
    | nil => exact .inl rfl
    | cons second later =>
      cases second with
      | label name =>
        by_cases same : name = target
        · subst same
          exact .inr ⟨name, later, rfl, rfl, by rw [eliminateRedundantJmps, if_pos rfl]⟩
        · exact .inl (by rw [eliminateRedundantJmps, if_neg same])
      | _ => exact .inl rfl
  | _ => exact .inl rfl

def labels (nodes : List ASTNode) : List String :=
  nodes.filterMap fun
    | .label name => some name
    | _ => none

theorem seek_label {nodes rest : List ASTNode} {target : String} (unique : (labels nodes).Nodup)
    (inside : .label target :: rest <:+ nodes) : seek ASTNode.control target nodes = .label target :: rest := by
  obtain ⟨earlier, rfl⟩ := inside
  have free : ∀ node ∈ earlier, node.control ≠ .label target := by
    intro node member here
    rw [ASTNode.control_eq_label.mp here] at member
    rw [labels, filterMap_append, nodup_append] at unique
    exact unique.2.2 target (mem_filterMap.mpr ⟨_, member, rfl⟩) target (by simp) rfl
  apply seek_of_found
  rw [fromLabel_append free]
  exact if_pos rfl

theorem eliminateRedundantJmps_prunes {nodes : List ASTNode} (unique : (labels nodes).Nodup) :
    Prunes nodes eliminateRedundantJmps where
  nil := rfl
  cons := by
    intro node rest inside
    rcases eliminateRedundantJmps_cons node rest with kept | ⟨target, later, rfl, rfl, pruned⟩
    · exact .inl kept
    · exact .inr ⟨pruned, .inr ⟨target, rfl, seek_label unique ((suffix_cons _ _).trans inside)⟩⟩

/-- Removing redundant jumps and then pipes changes neither the nodes that are executed nor how the run ends. -/
theorem redundant_removed_behaviour (gate : S → ASTNode → Except E (Bool × S)) (exec : S → ASTNode → Except E S)
    (nodes : List ASTNode) (unique : (labels nodes).Nodup) (now : S) :
    SameCourse (nodeEnv gate exec) now nodes (removeNops (eliminateRedundantJmps nodes)) :=
  ((eliminateRedundantJmps_prunes unique).sameCourse now).trans ((removeNops_prunes _).sameCourse now)

theorem redundant_removed_looping :
    removeNops (eliminateRedundantJmps [.label "l", .next "a", .pipe, .jmp "m", .label "m", .gate "x" "==" "1",
        .jmp "l"]) = [.label "l", .next "a", .label "m", .gate "x" "==" "1", .jmp "l"] ∧
      SameCourse (nodeEnv (fun n _ => .ok (n < 3, n)) (fun n _ => .ok (n + 1) : Nat → ASTNode → Except Empty Nat)) 0
        [.label "l", .next "a", .pipe, .jmp "m", .label "m", .gate "x" "==" "1", .jmp "l"]
        (removeNops (eliminateRedundantJmps [.label "l", .next "a", .pipe, .jmp "m", .label "m",
          .gate "x" "==" "1", .jmp "l"])) :=
  ⟨by decide, redundant_removed_behaviour _ _ _ (by decide) 0⟩

end FlowRulZ.Optimizer
