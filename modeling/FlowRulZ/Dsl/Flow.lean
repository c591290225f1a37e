import FlowRulZ.Dsl.Ast
import FlowRulZ.Lib.Machine

/-! # Control flow of a pipeline

Nodes run from left to right.  A false gate skips to the next gate or label, a jump
goes to its label, a drop ends the run.  What a node does and what a gate tells is left
open: it is given by an `Env` over any state, so an assignment of truth values to gates
may depend on all that happened before.
-/

namespace FlowRulZ

open List

/-- What an item of a pipeline means for the flow of control. -/
inductive Control where
  /-- calls services or works on the data -/
  | act
  /-- leaves no instruction -/
  | idle
  | gate
  | label (name : String)
  | jmp (target : String)
  | drop
  deriving Repr, DecidableEq

def ASTNode.control : ASTNode → Control
  | .gate .. => .gate
  | .label name => .label name
  | .jmp target => .jmp target
  | .drop => .drop
  | .pipe | .timeout _ | .retry .. => .idle
  | _ => .act

theorem ASTNode.control_eq_label {node : ASTNode} {name : String} :
    node.control = .label name ↔ node = .label name := by
  cases node <;> simp [ASTNode.control]

theorem ASTNode.control_eq_jmp {node : ASTNode} {target : String} :
    node.control = .jmp target ↔ node = .jmp target := by
  cases node <;> simp [ASTNode.control]

namespace Flow

/-- How items act on a state of type `S`; either kind of step may fail. -/
structure Env (ν S E : Type*) where
  control : ν → Control
  gate : S → ν → Except E (Bool × S)
  exec : S → ν → Except E S

/-- Pipeline nodes with any meaning of gates and actions. -/
def nodeEnv {S E : Type*} (gate : S → ASTNode → Except E (Bool × S))
    (exec : S → ASTNode → Except E S) : Env ASTNode S E :=
  ⟨ASTNode.control, gate, exec⟩

structure State (ν S : Type*) where
  rest : List ν
  /-- a gate was false, and no gate or label has come since -/
  skipping : Bool
  env : S
  /-- the items executed so far -/
  out : List ν

variable {ν S E : Type*}

/-- The part from the first label of that name on; nothing if there is none. -/
def fromLabel (control : ν → Control) (target : String) : List ν → List ν
  | [] => []
  | item :: rest =>
    if control item = .label target then item :: rest else fromLabel control target rest

/-- Where a jump goes. A jump to no label goes to the start, as in compiled code. -/
def seek (control : ν → Control) (target : String) (program : List ν) : List ν :=
  if fromLabel control target program = [] then program else fromLabel control target program

section Labels

variable {control : ν → Control}

theorem fromLabel_suffix (target : String) (program : List ν) : fromLabel control target program <:+ program := by
  induction program with
  | nil => exact suffix_rfl
  | cons item rest ih =>
    simp only [fromLabel]
    split
    · exact suffix_rfl
    · exact ih.trans (suffix_cons item rest)

theorem seek_suffix (target : String) (program : List ν) : seek control target program <:+ program := by
  rw [seek]
  split
  · exact suffix_rfl
  · exact fromLabel_suffix target program

theorem seek_of_found {target : String} {program rest : List ν} {item : ν}
    (found : fromLabel control target program = item :: rest) :
    seek control target program = item :: rest := by
  rw [seek, found, if_neg (cons_ne_nil item rest)]

theorem fromLabel_append {target : String} {left right : List ν} (free : ∀ item ∈ left, control item ≠ .label target) :
    fromLabel control target (left ++ right) = fromLabel control target right := by
  induction left with
  | nil => rfl
  | cons item left ih =>
    rw [cons_append, fromLabel, if_neg (free item mem_cons_self)]
    exact ih fun later inside => free later (mem_cons_of_mem _ inside)

theorem fromLabel_head (control : ν → Control) (target : String) (program : List ν) :
    fromLabel control target program = [] ∨ ∃ item rest, fromLabel control target program = item :: rest ∧
        control item = .label target := by
  induction program with
  | nil => exact .inl rfl
  | cons item rest ih =>
    by_cases here : control item = .label target
    · exact .inr ⟨item, rest, if_pos here, here⟩
    · rw [fromLabel, if_neg here]
      exact ih

theorem seek_commutes {f : List ν → List ν} {target : String} {p : List ν}
    (commutes : fromLabel control target (f p) = f (fromLabel control target p)) (none : f [] = [])
    (some : ∀ item rest, control item = .label target → f (item :: rest) ≠ []) :
    seek control target (f p) = f (seek control target p) := by
  simp only [seek, commutes]
  rcases fromLabel_head control target p with missing | ⟨item, rest, found, here⟩
  · simp [missing, none]
  · rw [found, if_neg (some item rest here), if_neg (cons_ne_nil item rest)]

end Labels

variable (env : Env ν S E)

/-- One move of a run of `program`; it ends with the last state or an error, and with the items that were executed. -/
def next (program : List ν) (s : State ν S) : State ν S ⊕ Except E S × List ν :=
  match s.rest with
  | [] => .inr (.ok s.env, s.out)
  | item :: rest =>
    match env.control item with
    | .label _ => .inl { s with rest := rest, skipping := false }
    | .gate =>
      match env.gate s.env item with
      | .error e => .inr (.error e, s.out)
      | .ok (passes, after) => .inl { s with rest := rest, skipping := !passes, env := after }
    | .idle => .inl { s with rest := rest }
    | .act =>
      if s.skipping then .inl { s with rest := rest }
      else
        match env.exec s.env item with
        | .error e => .inr (.error e, s.out ++ [item])
        | .ok after => .inl { s with rest := rest, env := after, out := s.out ++ [item] }
    | .jmp target =>
      if s.skipping then .inl { s with rest := rest }
      else .inl { s with rest := seek env.control target program }
    | .drop => if s.skipping then .inl { s with rest := rest } else .inr (.ok s.env, s.out)

def machine (program : List ν) : Machine (State ν S) (Except E S × List ν) := ⟨next env program⟩

def start (program : List ν) (s : S) : State ν S := ⟨program, false, s, []⟩

/-- Two programs execute the same items and end alike. -/
def SameBehaviour (s : S) (p q : List ν) : Prop :=
  (∀ items, (machine env p).Emits State.out (start p s) items ↔ (machine env q).Emits State.out (start q s) items) ∧
  ∀ result, (machine env p).Halts (start p s) result ↔ (machine env q).Halts (start q s) result

variable {env} {p q : List ν} {s s' t : State ν S} {item : ν} {rest rest' : List ν}

theorem next_nil (empty : s.rest = []) : (machine env p).next s = .inr (.ok s.env, s.out) := by
  simp only [machine, next, empty]

section

variable (head : s.rest = item :: rest)
include head

theorem next_jmp {target : String} (jump : env.control item = .jmp target) (awake : s.skipping = false) :
    (machine env p).next s = .inl { s with rest := seek env.control target p } := by
  simp [machine, next, head, jump, awake]

theorem next_label {name : String} (label : env.control item = .label name) :
    (machine env p).next s = .inl { s with rest := rest, skipping := false } := by
  simp only [machine, next, head, label]

theorem next_gate {passes : Bool} {after : S}
    (isGate : env.control item = .gate) (tells : env.gate s.env item = .ok (passes, after)) :
    (machine env p).next s = .inl { s with rest := rest, skipping := !passes, env := after } := by
  simp only [machine, next, head, isGate, tells]

theorem next_gate_error {e : E} (isGate : env.control item = .gate) (fails : env.gate s.env item = .error e) :
    (machine env p).next s = .inr (.error e, s.out) := by
  simp only [machine, next, head, isGate, fails]

theorem next_act {after : S} (act : env.control item = .act)
    (awake : s.skipping = false) (done : env.exec s.env item = .ok after) :
    (machine env p).next s = .inl { s with rest := rest, env := after, out := s.out ++ [item] } := by
  simp [machine, next, head, act, awake, done]

theorem next_act_error {e : E} (act : env.control item = .act)
    (awake : s.skipping = false) (fails : env.exec s.env item = .error e) :
    (machine env p).next s = .inr (.error e, s.out ++ [item]) := by
  simp [machine, next, head, act, awake, fails]

theorem next_drop (drop : env.control item = .drop)
    (awake : s.skipping = false) : (machine env p).next s = .inr (.ok s.env, s.out) := by
  simp [machine, next, head, drop, awake]

theorem next_skip (asleep : s.skipping = true)
    (notGate : env.control item ≠ .gate) (notLabel : ∀ name, env.control item ≠ .label name) :
    (machine env p).next s = .inl { s with rest := rest } := by
  simp only [machine, next, head, asleep]
  cases kind : env.control item with
  | gate => exact absurd kind notGate
  | label name => exact absurd kind (notLabel name)
  | act | idle | jmp target | drop => simp

end

/-- A pass that keeps the item at hand, and commutes with a jump taken there, commutes with the move. -/
theorem next_kept (pass : List ν → List ν) (head : s.rest = item :: rest)
    (jumps : s.skipping = false → ∀ target, env.control item = .jmp target →
      seek env.control target q = pass (seek env.control target p)) :
    (machine env q).next { s with rest := item :: pass rest } =
      ((machine env p).next s).map (fun s' => { s' with rest := pass s'.rest }) id := by
  obtain ⟨_, skipping, now, out⟩ := s
  subst head
  simp only [machine, next]
  cases kind : env.control item with
  | label name | idle => rfl
  | gate =>
    cases env.gate now item with
    | error e => rfl
    | ok result => rfl
  | act =>
    cases skipping with
    | true => rfl
    | false =>
      cases env.exec now item with
      | error e => rfl
      | ok after => rfl
  | drop => cases skipping <;> rfl
  | jmp target =>
    cases skipping with
    | true => rfl
    | false => simp [jumps rfl target kind]

section

variable (noJump : s.skipping = true ∨ ∀ target, env.control item ≠ .jmp target)
include noJump

theorem next_same_head (head : s.rest = item :: rest) : (machine env q).next { s with rest := item :: rest' } =
      ((machine env p).next s).map (fun s' => { s' with rest := rest' }) id :=
  next_kept (fun _ => rest') head (by grind)

theorem step_rest (head : s.rest = item :: rest) (move : (machine env p).Step s s') : s'.rest = rest := by
  have moved : (machine env p).next { s with rest := item :: rest } = _ :=
    next_same_head (p := p) noJump head
  have same : ({ s with rest := item :: rest } : State ν S) = s := by rw [← head]
  rw [same, move, Sum.map_inl, Sum.inl.injEq] at moved
  rw [moved]

end

theorem step_grows (move : (machine env p).Step s s') : s.out <+: s'.out := by
  simp only [Machine.Step, machine, next] at move
  repeat' split at move
  all_goals cases move
  all_goals first
    | exact prefix_rfl
    | exact prefix_append _ _

theorem step_suffix (inside : s.rest <:+ p) (move : (machine env p).Step s s') : s'.rest <:+ p := by
  cases head : s.rest with
  | nil =>
    rw [Machine.Step, next_nil head] at move
    cases move
  | cons item rest =>
    by_cases jump : s.skipping = false ∧ ∃ target, env.control item = .jmp target
    · obtain ⟨awake, target, kind⟩ := jump
      rw [Machine.Step, next_jmp head kind awake, Sum.inl.injEq] at move
      subst move
      exact seek_suffix _ p
    · have noJump : s.skipping = true ∨ ∀ target, env.control item ≠ .jmp target := by
        rw [not_and_or, not_exists, Bool.not_eq_false] at jump
        exact jump
      rw [step_rest noJump head move]
      rw [head] at inside
      exact (suffix_cons item rest).trans inside

theorem next_node_jmp {gate : S → ASTNode → Except E (Bool × S)}
    {exec : S → ASTNode → Except E S} {nodes rest : List ASTNode} {target : String}
    {s : State ASTNode S} (head : s.rest = .jmp target :: rest) (awake : s.skipping = false) :
    (machine (nodeEnv gate exec) nodes).next s = .inl { s with rest := seek ASTNode.control target nodes } :=
  next_jmp head rfl awake

theorem not_sameBehaviour {now : S} (result result' : Except E S × List ν)
    (here : (machine env p).Halts (start p now) result)
    (there : (machine env q).Halts (start q now) result') (differ : result.2 ≠ result'.2) :
    ¬ SameBehaviour env now p q := by
  intro same
  obtain ⟨-, halts⟩ := same
  have same := Machine.Halts.unique ((halts _).mp here) there
  exact differ (congrArg Prod.snd same)

theorem sameBehaviour_of_simulates {R : State ν S → State ν S → Prop} {rank : State ν S → Nat}
    {now : S} (sim : Machine.Simulates (machine env p) (machine env q) R rank)
    (same : ∀ s t, R s t → s.out = t.out) (related : R (start p now) (start q now)) :
    SameBehaviour env now p q :=
  ⟨fun _ => sim.emits_iff same (fun _ _ => step_grows) related, fun _ => sim.halts_iff related⟩

end Flow

end FlowRulZ
