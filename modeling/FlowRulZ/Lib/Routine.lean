import FlowRulZ.Lib.Component
import Mathlib.Logic.Relation
import Mathlib.Logic.Function.Iterate

/-! # Routines

A routine is a program of atomic actions on a shared state.  An action may have to wait
until the state lets it pass; locks and wait groups are such actions.  A routine is read in
three ways: what it computes if nothing keeps it waiting, whether it returns when it runs
alone, and what it does among other routines in any interleaving.
-/

inductive Routine (S R : Type) where
  | ret (r : R)
  | panic
  /-- Wait for the guard, update the state, and go on with the state found. -/
  | step (guard : S → Bool) (update : S → S) (next : S → Routine S R)

namespace Routine

variable {S R A B : Type}

def bind (p : Routine S A) (f : A → Routine S B) : Routine S B :=
  match p with
  | .ret a => f a
  | .panic => .panic
  | .step guard update next => .step guard update fun s => (next s).bind f

instance : Monad (Routine S) where
  pure := .ret
  bind := .bind

theorem bind_ret (p : Routine S A) : p.bind .ret = p := by
  induction p with
  | ret a => rfl
  | panic => rfl
  | step guard update next ih => exact congrArg (Routine.step guard update) (funext ih)

theorem bind_bind {C : Type} (p : Routine S A) (f : A → Routine S B) (g : B → Routine S C) :
    (p.bind f).bind g = p.bind fun a => (f a).bind g := by
  induction p with
  | ret a => rfl
  | panic => rfl
  | step guard update next ih => exact congrArg (Routine.step guard update) (funext ih)

instance : LawfulMonad (Routine S) :=
  LawfulMonad.mk' (Routine S) bind_ret (fun _ _ => rfl) bind_bind

def await (guard : S → Bool) : Routine S Unit := .step guard id fun _ => .ret ()

def modify (update : S → S) : Routine S Unit := .step (fun _ => true) update fun _ => .ret ()

def read (f : S → A) : Routine S A := .step (fun _ => true) id fun s => .ret (f s)

@[simp]
theorem pure_eq (a : A) : (pure a : Routine S A) = .ret a := rfl

@[simp]
theorem ret_bind (a : A) (f : A → Routine S B) : (Routine.ret a >>= f) = f a := rfl

@[simp]
theorem step_bind (guard : S → Bool) (update : S → S) (next : S → Routine S A) (f : A → Routine S B) :
    (Routine.step guard update next >>= f) = .step guard update fun s => next s >>= f := rfl

/-- What a routine computes if nothing keeps it waiting: its result, none for a panic, and the state it leaves. -/
def eval : Routine S R → S → Option R × S
  | .ret r, s => (some r, s)
  | .panic, s => (none, s)
  | .step _ update next, s => (next s).eval (update s)

@[simp]
theorem eval_ret (r : R) (s : S) : (Routine.ret r).eval s = (some r, s) := rfl

@[simp]
theorem eval_step (guard : S → Bool) (update : S → S) (next : S → Routine S R) (s : S) :
    (Routine.step guard update next).eval s = (next s).eval (update s) := rfl

@[simp]
theorem eval_read (f : S → A) (next : A → Routine S R) (s : S) :
    (Routine.read f >>= next).eval s = (next (f s)).eval s := rfl

@[simp]
theorem eval_modify (update : S → S) (next : Unit → Routine S R) (s : S) :
    (Routine.modify update >>= next).eval s = (next ()).eval (update s) := rfl

/-- The outcome of a routine that runs alone; none if it waits for ever, since nobody else can open its guard. -/
def alone : Routine S R → S → Option (Option R × S)
  | .ret r, s => some (some r, s)
  | .panic, s => some (none, s)
  | .step guard update next, s => if guard s then (next s).alone (update s) else none

@[simp]
theorem alone_ret (r : R) (s : S) : (Routine.ret r).alone s = some (some r, s) := rfl

@[simp]
theorem alone_panic (s : S) : (Routine.panic : Routine S R).alone s = some (none, s) := rfl

@[simp]
theorem alone_step (guard : S → Bool) (update : S → S) (next : S → Routine S R) (s : S) :
    (Routine.step guard update next).alone s = if guard s then (next s).alone (update s) else none := rfl

@[simp]
theorem alone_read (f : S → A) (next : A → Routine S R) (s : S) :
    (Routine.read f >>= next).alone s = (next (f s)).alone s := rfl

@[simp]
theorem alone_modify (update : S → S) (next : Unit → Routine S R) (s : S) :
    (Routine.modify update >>= next).alone s = (next ()).alone (update s) := rfl

@[simp]
theorem alone_await (guard : S → Bool) (next : Unit → Routine S R) (s : S) :
    (Routine.await guard >>= next).alone s = if guard s then (next ()).alone s else none := rfl

end Routine

/-- Routines that share a state. -/
structure System (S R : Type) where
  state : S
  threads : List (Routine S R)

namespace System

variable {S R : Type}

/-- A thread makes its next action, if it has one and its guard is open. -/
def go (sys : System S R) (i : Nat) : System S R :=
  match sys.threads[i]? with
  | some (.step guard update next) =>
    if guard sys.state then ⟨update sys.state, sys.threads.set i (next sys.state)⟩ else sys
  | _ => sys

end System

namespace Routine

variable {S R A B : Type}

/-- A routine that runs alone returns after some actions. -/
def Returns (p : Routine S R) (s : S) (r : R) (s' : S) : Prop :=
  ∃ n, (System.go · 0)^[n] ⟨s, [p]⟩ = ⟨s', [.ret r]⟩

theorem go_ended (s : S) (r : R) (n : Nat) : (System.go · 0)^[n] ⟨s, [.ret r]⟩ = ⟨s, [.ret r]⟩ :=
  Function.iterate_fixed rfl n

theorem go_panicked (s : S) (n : Nat) : (System.go · 0)^[n] ⟨s, [(.panic : Routine S R)]⟩ = ⟨s, [.panic]⟩ :=
  Function.iterate_fixed rfl n

theorem go_open {guard : S → Bool} {s : S} (open_ : guard s = true) (update : S → S) (next : S → Routine S R) :
    System.go ⟨s, [.step guard update next]⟩ 0 = ⟨update s, [next s]⟩ := by
  simp [System.go, open_]

theorem go_closed {guard : S → Bool} {s : S} (closed : guard s = false) (update : S → S)
    (next : S → Routine S R) (n : Nat) :
    (System.go · 0)^[n] ⟨s, [.step guard update next]⟩ = ⟨s, [.step guard update next]⟩ :=
  Function.iterate_fixed (by simp [System.go, closed]) n

theorem returns_iff (p : Routine S R) (s : S) (r : R) (s' : S) : p.Returns s r s' ↔ p.alone s = some (some r, s') := by
  induction p generalizing s with
  | ret r₀ => simp [Returns, go_ended, and_comm]
  | panic => simp [Returns, go_panicked]
  | step guard update next ih =>
    cases passes : guard s with
    | false => simp [Returns, go_closed passes, passes]
    | true =>
      rw [alone_step, passes, if_pos rfl, ← ih s]
      constructor
      · rintro ⟨n, reached⟩
        cases n with
        | zero => simp at reached
        | succ n =>
          rw [Function.iterate_succ_apply, go_open passes] at reached
          exact ⟨n, reached⟩
      · rintro ⟨n, reached⟩
        refine ⟨n + 1, ?_⟩
        rw [Function.iterate_succ_apply, go_open passes]
        exact reached

end Routine
