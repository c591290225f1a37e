import FlowRulZ.Bytecode.Bincode
import FlowRulZ.Dsl.Iteration
import FlowRulZ.Dsl.Lexer
import FlowRulZ.Dsl.Optimizer
import FlowRulZ.Dsl.Parser

/-! # Compiling a text twice

`flowrulz_compile` gives the bytes of a plan.  The hash maps that the compiler and bincode
iterate have an order of their own in every run.  The layers never show it; the terminal
nodes and the bytes do, as soon as an index has two entries.
-/

open List

namespace FlowRulZ

inductive CompileFailure where
  | lex (e : Fault LexError)
  | parse (e : ParseError)
  | compile (e : Fault CompileError)

namespace Compiler

/-- `flowrulz_compile`, up to the plan. -/
def flowrulzCompile (self : Compiler) (dsl ruleId : String) : Except CompileFailure ExecutionPlan :=
  match lex dsl with
  | .error e => .error (.lex e)
  | .ok tokens =>
    match parse tokens with
    | .error e => .error (.parse e)
    | .ok pipeline =>
      match self.compile (Optimizer.optimize pipeline) ruleId with
      | .error e => .error (.compile e)
      | .ok plan => .ok plan

variable {self other : Compiler} {dsl ruleId : String} {plan : ExecutionPlan}

/-- A text that compiles has nodes that compile, on every platform the same. -/
theorem flowrulzCompile_nodes (compiled : self.flowrulzCompile dsl ruleId = .ok plan) :
    ∃ nodes, self.compile nodes ruleId = .ok plan ∧ ∀ (other : Compiler) (plan' : ExecutionPlan),
        other.flowrulzCompile dsl ruleId = .ok plan' ↔ other.compile nodes ruleId = .ok plan' := by
  unfold flowrulzCompile at compiled ⊢
  cases lexed : lex dsl with
  | error e => simp [lexed] at compiled
  | ok tokens =>
    simp only [lexed] at compiled ⊢
    cases parsed : parse tokens with
    | error e => simp [parsed] at compiled
    | ok pipeline =>
      simp only [parsed] at compiled ⊢
      have read : ∀ (other : Compiler) (plan' : ExecutionPlan),
          (match other.compile (Optimizer.optimize pipeline) ruleId with
            | .error e => .error (.compile e)
            | .ok plan => .ok plan : Except CompileFailure ExecutionPlan) = .ok plan' ↔
          other.compile (Optimizer.optimize pipeline) ruleId = .ok plan' := by
        intro other plan'
        cases other.compile (Optimizer.optimize pipeline) ruleId <;> simp
      exact ⟨_, (read self plan).mp compiled, read⟩

theorem flowrulzCompile_same (platform : SamePlatform self other)
    (compiled : self.flowrulzCompile dsl ruleId = .ok plan) :
    ∃ tables, other.flowrulzCompile dsl ruleId = .ok (plan.withTables tables) ∧
      List.Forall₂ SameTable plan.dagTables tables := by
  obtain ⟨nodes, once, iff⟩ := flowrulzCompile_nodes compiled
  obtain ⟨tables, again, same⟩ := compile_same platform once
  exact ⟨tables, (iff other _).mpr again, same⟩

end Compiler

/-- A compilation of a text: the orders in which it iterates its hash maps, and the plan. -/
structure Compilation (platform : Compiler) (dsl ruleId : String) where
  compiler : Compiler
  same : Compiler.SamePlatform platform compiler
  plan : ExecutionPlan
  compiled : compiler.flowrulzCompile dsl ruleId = .ok plan
  constants : List (String × UInt16)
  iterates : Bincode.Iterates constants plan.constPool
  names : List (String × UInt16)
  names_iterates : Bincode.Iterates names plan.services

namespace Compilation

open Compiler Bincode

variable {self : Compiler} {dsl ruleId : String} {plan : ExecutionPlan} {serializer : Serializer}

def terminalNodes (c : Compilation self dsl ruleId) : List (List UInt16) := c.plan.dagTables.map (·.terminalNodes)

def layers (c : Compilation self dsl ruleId) : List (List (List UInt16)) := c.plan.dagTables.map (·.layers)

def bytes (serializer : Serializer) (c : Compilation self dsl ruleId) : Bytes :=
  serializer c.plan c.constants c.names

structure Agree (plan plan' : ExecutionPlan) : Prop where
  others : plan' = plan.withTables plan'.dagTables
  tables : List.Forall₂ SameTable plan.dagTables plan'.dagTables

theorem agree_of_compiled {other : Compiler} {plan' : ExecutionPlan} (platform : SamePlatform self other)
    (compiled : self.flowrulzCompile dsl ruleId = .ok plan) (compiled' : other.flowrulzCompile dsl ruleId = .ok plan') :
    Agree plan plan' := by
  obtain ⟨tables, again, same⟩ := flowrulzCompile_same platform compiled
  cases compiled'.symm.trans again
  exact ⟨rfl, same⟩

theorem agree (c c' : Compilation self dsl ruleId) : Agree c.plan c'.plan :=
  agree_of_compiled ⟨c'.same.toLowercase.trans c.same.toLowercase.symm, c'.same.debugStr.trans c.same.debugStr.symm⟩
    c.compiled c'.compiled

theorem map_layers {tables tables' : List DAGTable} (same : List.Forall₂ SameTable tables tables') :
    tables.map (·.layers) = tables'.map (·.layers) := by
  induction same with
  | nil => rfl
  | cons one _ ih => rw [map_cons, map_cons, ih, one.others]

theorem terminalNodes_perm (c c' : Compilation self dsl ruleId) :
    List.Forall₂ List.Perm c.terminalNodes c'.terminalNodes := by
  rw [terminalNodes, terminalNodes, List.forall₂_map_left_iff, List.forall₂_map_right_iff]
  exact (c.agree c').tables.imp fun _ _ one => one.terminal.symm

theorem tables_eq {tables tables' : List DAGTable} (same : List.Forall₂ SameTable tables tables')
    (few : ∀ table ∈ tables, table.terminalNodes.length ≤ 1) : tables' = tables := by
  induction same with
  | nil => rfl
  | cons one _ ih =>
    rw [ih fun table listed => few table (mem_cons_of_mem _ listed), one.others,
      perm_of_short (few _ mem_cons_self) one.terminal]

/-- With one service and one constant there is one order of everything. -/
theorem bytes_eq (c : Compilation self dsl ruleId) (compiled : self.flowrulzCompile dsl ruleId = .ok plan)
    (services : plan.services.entries.length ≤ 1) (constants : plan.constPool.entries.length ≤ 1) :
    c.plan = plan ∧ c.bytes serializer = serializer plan (pairs plan.constPool) (pairs plan.services) := by
  have agree := agree_of_compiled c.same compiled c.compiled
  obtain ⟨nodes, once, -⟩ := flowrulzCompile_nodes compiled
  have unchanged : c.plan = plan := by
    rw [agree.others, tables_eq agree.tables fun table listed => (compile_terminals once table listed).trans services]
    rfl
  have first := c.iterates
  have second := c.names_iterates
  rw [unchanged] at first second
  exact ⟨unchanged, by rw [bytes, unchanged, first.eq_pairs constants, second.eq_pairs services]⟩

/-- The compilation of the platform's own orders, with these orders of the indices. -/
def iterating (compiled : self.flowrulzCompile dsl ruleId = .ok plan) (constants names : List (String × UInt16))
    (iterates : Iterates constants plan.constPool) (names_iterates : Iterates names plan.services) :
    Compilation self dsl ruleId where
  compiler := self
  same := ⟨rfl, rfl⟩
  plan := plan
  compiled := compiled
  constants := constants
  iterates := iterates
  names := names
  names_iterates := names_iterates

/-- Bytes that do not depend on the orders are those of short indices. -/
theorem short_of_bytes (orders : serializer.ShowsOrders) (compiled : self.flowrulzCompile dsl ruleId = .ok plan)
    (fits : Fits plan.constPool) (names_fit : Fits plan.services)
    (same : ∀ c c' : Compilation self dsl ruleId, c.bytes serializer = c'.bytes serializer) :
    plan.services.entries.length ≤ 1 ∧ plan.constPool.entries.length ≤ 1 := by
  have iterates : Iterates (pairs plan.constPool) plan.constPool := .refl _
  have iterates' : Iterates (pairs plan.constPool).reverse plan.constPool := reverse_perm _
  have names_iterates : Iterates (pairs plan.services) plan.services := .refl _
  have names_iterates' : Iterates (pairs plan.services).reverse plan.services := reverse_perm _
  have bytes := same (iterating compiled _ _ iterates' names_iterates') (iterating compiled _ _ iterates names_iterates)
  obtain ⟨constants, names⟩ := orders iterates' iterates names_iterates' names_iterates fits names_fit bytes
  exact ⟨short_of_pairs names, short_of_pairs constants⟩

/-- Two compilations have the same layers, and the same terminal nodes in some order. All compilations agree in
everything exactly if no index has two entries. -/
theorem deterministic_iff (orders : serializer.ShowsOrders) (compiled : self.flowrulzCompile dsl ruleId = .ok plan)
    (fits : Fits plan.constPool) (names_fit : Fits plan.services) :
    (∀ c c' : Compilation self dsl ruleId,
        c.layers = c'.layers ∧ List.Forall₂ List.Perm c.terminalNodes c'.terminalNodes) ∧
      ((∀ c c' : Compilation self dsl ruleId,
          c.terminalNodes = c'.terminalNodes ∧ c.layers = c'.layers ∧ c.bytes serializer = c'.bytes serializer) ↔
        plan.services.entries.length ≤ 1 ∧ plan.constPool.entries.length ≤ 1) := by
  refine ⟨fun c c' => ⟨map_layers (c.agree c').tables, c.terminalNodes_perm c'⟩, ?_, ?_⟩
  · intro same
    exact short_of_bytes orders compiled fits names_fit fun c c' => (same c c').2.2
  · rintro ⟨services, constants⟩ c c'
    obtain ⟨plan_c, bytes_c⟩ := c.bytes_eq compiled services constants
    obtain ⟨plan_c', bytes_c'⟩ := c'.bytes_eq compiled services constants
    have plans : c.plan = c'.plan := plan_c.trans plan_c'.symm
    exact ⟨by rw [terminalNodes, terminalNodes, plans], by rw [layers, layers, plans], bytes_c.trans bytes_c'.symm⟩

theorem deterministic_one : Compiler.ascii.flowrulzCompile "n:a" "r" = .ok (Compiler.ascii.planOf [.next "a"] "r") ∧
      ∀ c c' : Compilation .ascii "n:a" "r",
        c.terminalNodes = c'.terminalNodes ∧ c.layers = c'.layers ∧ c.bytes serialize = c'.bytes serialize := by
  have compiled : Compiler.ascii.flowrulzCompile "n:a" "r" = .ok (Compiler.ascii.planOf [.next "a"] "r") := rfl
  exact ⟨compiled, (deterministic_iff serialize_showsOrders compiled (by decide) (by decide)).2.mpr ⟨by decide, by decide⟩⟩

/-- A platform for text in ASCII whose hash maps iterate in the opposite order. -/
def reversing : Compiler :=
  { Compiler.ascii with
    dependencyOrder := List.reverse
    degreeOrder := List.reverse
    dependencyOrder_perm := List.reverse_perm
    degreeOrder_perm := List.reverse_perm }

def reversed {dsl ruleId : String} {plan : ExecutionPlan} (compiled : reversing.flowrulzCompile dsl ruleId = .ok plan) :
    Compilation .ascii dsl ruleId where
  compiler := reversing
  same := ⟨rfl, rfl⟩
  plan := plan
  compiled := compiled
  constants := (pairs plan.constPool).reverse
  iterates := List.reverse_perm _
  names := (pairs plan.services).reverse
  names_iterates := List.reverse_perm _

/-- Two services called in a row have two orders in the index, and two nodes of a DAG on which no other depends also
have two orders in its table. -/
theorem orders_differ : (∃ c c' : Compilation .ascii "n:a n:b" "r", c.bytes serialize ≠ c'.bytes serialize) ∧
      ∃ c c' : Compilation .ascii "dag:a,b" "r",
        c.terminalNodes = [[0, 1]] ∧ c'.terminalNodes = [[1, 0]] ∧ c.bytes serialize ≠ c'.bytes serialize := by
  have calls : Compiler.ascii.flowrulzCompile "n:a n:b" "r" =
      .ok (Compiler.ascii.planOf [.next "a", .next "b"] "r") := rfl
  have calls' : reversing.flowrulzCompile "n:a n:b" "r" = .ok (reversing.planOf [.next "a", .next "b"] "r") := rfl
  have dag : Compiler.ascii.flowrulzCompile "dag:a,b" "r" = .ok (Compiler.ascii.planOf [.dag "a,b"] "r") := rfl
  have dag' : reversing.flowrulzCompile "dag:a,b" "r" = .ok (reversing.planOf [.dag "a,b"] "r") := rfl
  refine ⟨⟨iterating calls _ _ (.refl _) (.refl _), reversed calls', ?_⟩,
    iterating dag _ _ (.refl _) (.refl _), reversed dag', ?_⟩
  · simp only [bytes, iterating, reversed]
    decide +kernel
  · simp only [terminalNodes, bytes, iterating, reversed]
    decide +kernel

end Compilation

end FlowRulZ
