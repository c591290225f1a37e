import FlowRulZ.Lib.Splits
import Mathlib.Logic.Function.Basic

/-! # Components

A component handles requests one after the other: each changes its state and has some
outputs.  A component that keeps a state for every key is a family of components, and for
any interleaving of their requests each of them only sees its own.
-/

/-- A component with states `S`, requests `E` and outputs `O`. -/
structure Component (S E O : Type*) where
  handle : S → E → S × List O

open List

namespace Component

open Function

variable {S E O K : Type*} (C : Component S E O)

def run (s : S) : List E → S × List O
  | [] => (s, [])
  | e :: events =>
    let (s', out) := C.handle s e
    let (s'', rest) := run s' events
    (s'', out ++ rest)

@[simp]
theorem run_nil (s : S) : C.run s [] = (s, []) := rfl

@[simp]
theorem run_cons (s : S) (e : E) (events : List E) : C.run s (e :: events) =
      ((C.run (C.handle s e).1 events).1, (C.handle s e).2 ++ (C.run (C.handle s e).1 events).2) := rfl

theorem run_append (s : S) (events more : List E) : C.run s (events ++ more) =
      ((C.run (C.run s events).1 more).1, (C.run s events).2 ++ (C.run (C.run s events).1 more).2) := by
  induction events generalizing s with
  | nil => rfl
  | cons e events ih => simp [ih]

abbrev after (s : S) (events : List E) : S := (C.run s events).1

theorem after_append (s : S) (events more : List E) : C.after s (events ++ more) = C.after (C.after s events) more := by
  rw [after, run_append]

theorem after_concat (s : S) (events : List E) (e : E) :
    C.after s (events ++ [e]) = (C.handle (C.after s events) e).1 := by
  rw [after_append]
  rfl

variable {events : List E} {s : S}

theorem mem_run {x : O} : x ∈ (C.run s events).2 ↔
      ∃ before e rest, events = before ++ e :: rest ∧ x ∈ (C.handle (C.after s before) e).2 := by
  induction events generalizing s with
  | nil => simp
  | cons first events ih =>
    rw [run_cons, mem_append, ih, Splits.exists_cons]
    rfl

/-- An output is never repeated if no request repeats one, or brings one that comes later again. -/
theorem nodup_run (each : ∀ before e rest, events = before ++ e :: rest → (C.handle (C.after s before) e).2.Nodup) :
    (C.run s events).2.Nodup ↔ ∀ before e rest, events = before ++ e :: rest → ∀ x ∈ (C.handle (C.after s before) e).2,
        x ∉ (C.run (C.handle (C.after s before) e).1 rest).2 := by
  induction events generalizing s with
  | nil => simp
  | cons first events ih =>
    obtain ⟨now, rest⟩ := Splits.forall_cons.mp each
    rw [run_cons, nodup_append, ih rest, Splits.forall_cons]
    constructor
    · rintro ⟨-, later, apart⟩
      exact ⟨fun x here again => apart x here x again rfl, later⟩
    · rintro ⟨apart, later⟩
      refine ⟨now, later, ?_⟩
      rintro x here _ again rfl
      exact apart x here again

section

variable {C} {P : S → Prop} {s : S} {events more : List E} {e : E}

variable (C) in
/-- A condition holds in every state of a run. -/
def Always (P : S → Prop) (s : S) : List E → Prop
  | [] => P s
  | e :: events => P s ∧ Always P (C.handle s e).1 events

theorem Always.first (always : C.Always P s events) : P s := by
  cases events with
  | nil => exact always
  | cons e events => exact always.1

theorem Always.last (always : C.Always P s events) : P (C.after s events) := by
  induction events generalizing s with
  | nil => exact always
  | cons e events ih => exact ih always.2

theorem always_of_invariant (start : P s) (keeps : ∀ {s e}, e ∈ events → P s → P (C.handle s e).1) :
    C.Always P s events := by
  induction events generalizing s with
  | nil => exact start
  | cons e events ih =>
    refine ⟨start, ih (keeps mem_cons_self start) ?_⟩
    intro s e member
    exact keeps (mem_cons_of_mem _ member)

theorem after_of_invariant (start : P s) (keeps : ∀ {s e}, e ∈ events → P s → P (C.handle s e).1) :
    P (C.after s events) :=
  (always_of_invariant start keeps).last

theorem Always.imp {Q : S → Prop} (always : C.Always P s events) (weaker : ∀ s, P s → Q s) :
    C.Always Q s events := by
  induction events generalizing s with
  | nil => exact weaker s always
  | cons e events ih => exact ⟨weaker s always.1, ih always.2⟩

theorem always_append : C.Always P s (events ++ more) ↔ C.Always P s events ∧ C.Always P (C.after s events) more := by
  induction events generalizing s with
  | nil => exact ⟨fun always => ⟨always.first, always⟩, fun both => both.2⟩
  | cons e events ih => simp only [cons_append, Always, ih, and_assoc, after, run_cons]

theorem always_concat : C.Always P s (events ++ [e]) ↔ C.Always P s events ∧ P (C.after s (events ++ [e])) := by
  rw [always_append, after_concat]
  constructor
  · rintro ⟨before, -, now⟩
    exact ⟨before, now⟩
  · rintro ⟨before, now⟩
    exact ⟨before, before.last, now⟩

end

/-- Every request meets a condition in the state it finds. -/
def Throughout (P : S → E → Prop) (s : S) : List E → Prop
  | [] => True
  | e :: events => P s e ∧ Throughout P (C.handle s e).1 events

instance decidableThroughout {P : S → E → Prop} [∀ s e, Decidable (P s e)] :
    (s : S) → (events : List E) → Decidable (C.Throughout P s events)
  | _, [] => inferInstanceAs (Decidable True)
  | s, e :: events =>
    have := decidableThroughout (P := P) (C.handle s e).1 events
    inferInstanceAs (Decidable (P s e ∧ C.Throughout P (C.handle s e).1 events))

theorem Throughout.of_append {P : S → E → Prop} {events more : List E}
    (throughout : C.Throughout P s (events ++ more)) : C.Throughout P s events := by
  induction events generalizing s with
  | nil => trivial
  | cons first events ih => exact ⟨throughout.1, ih throughout.2⟩

/-- A condition holds in every state if every request meets another one, and one that meets it keeps it. -/
theorem always_of_throughout {P : S → Prop} {Q : S → E → Prop} (keeps : ∀ s e, P s → Q s e → P (C.handle s e).1)
    (start : P s) (throughout : C.Throughout Q s events) : C.Always P s events := by
  induction events generalizing s with
  | nil => exact start
  | cons e events ih => exact ⟨start, ih (keeps s e start throughout.1) throughout.2⟩

theorem throughout_of_throughout {I : S → Prop} {P Q : S → E → Prop} (keeps : ∀ s e, I s → P s e → I (C.handle s e).1)
    (meets : ∀ s e, I s → Q s e) (start : I s) (throughout : C.Throughout P s events) : C.Throughout Q s events := by
  induction events generalizing s with
  | nil => trivial
  | cons e events ih => exact ⟨meets s e start, ih (keeps s e start throughout.1) throughout.2⟩

/-- A condition holds in every state exactly if every request meets another one, if each request
that leaves a state with the condition meets it, and one that meets it keeps an invariant. -/
theorem always_iff_throughout {I P : S → Prop} {F Q : S → E → Prop} (holds : ∀ s, I s → P s)
    (step : ∀ s e, I s → F s e → (P (C.handle s e).1 → Q s e) ∧ (Q s e → I (C.handle s e).1))
    (start : I s) (framed : C.Throughout F s events) : C.Always P s events ↔ C.Throughout Q s events := by
  induction events generalizing s with
  | nil => exact ⟨fun _ => trivial, fun _ => holds s start⟩
  | cons e events ih =>
    obtain ⟨meets, keeps⟩ := step s e start framed.1
    constructor
    · intro always
      have met := meets always.2.first
      exact ⟨met, (ih (keeps met) framed.2).mp always.2⟩
    · intro throughout
      exact ⟨holds s start, (ih (keeps throughout.1) framed.2).mpr throughout.2⟩

theorem always_iff_throughout_of_step {I P : S → Prop} {Q : S → E → Prop}
    (holds : ∀ s, I s → P s) (step : ∀ s e, I s → (P (C.handle s e).1 → Q s e) ∧ (Q s e → I (C.handle s e).1))
    (start : I s) : C.Always P s events ↔ C.Throughout Q s events := by
  have free (s : S) : C.Throughout (fun _ _ => True) s events := by
    induction events generalizing s with
    | nil => trivial
    | cons e events ih => exact ⟨trivial, ih _⟩
  exact C.always_iff_throughout holds (fun s e now _ => step s e now) start (free s)

/-- Two components show the same if every request that meets a condition keeps them related and shows the same. -/
theorem run_eq_of_simulation {T : Type*} {D : Component T E O} {R : S → T → Prop} {Q : S → E → Prop} {t : T}
    (step : ∀ s t e, R s t → Q s e → R (C.handle s e).1 (D.handle t e).1 ∧ (C.handle s e).2 = (D.handle t e).2)
    (start : R s t) (throughout : C.Throughout Q s events) : (C.run s events).2 = (D.run t events).2 := by
  induction events generalizing s t with
  | nil => rfl
  | cons e events ih =>
    obtain ⟨related, same⟩ := step s t e start throughout.1
    rw [run_cons, run_cons, same, ih related throughout.2]

theorem throughout_split {P : S → E → Prop} {events more : List E} {e : E}
    (throughout : C.Throughout P s (events ++ e :: more)) : P (C.after s events) e := by
  induction events generalizing s with
  | nil => exact throughout.1
  | cons first events ih => exact ih throughout.2

section

variable [DecidableEq K]

theorem update_related {A B : Type*} {R : A → B → Prop} {f : K → A} {g : K → B} (all : ∀ k, R (f k) (g k)) (k : K)
    {a : A} {b : B} (new : R a b) (j : K) : R (update f k a j) (update g k b j) := by
  by_cases same : j = k
  · subst same
    rwa [update_self, update_self]
  · rw [update_of_ne same, update_of_ne same]
    exact all j

def keyed : Component (K → S) (K × E) (K × O) where
  handle states event :=
    let (s, out) := C.handle (states event.1) event.2
    (Function.update states event.1 s, out.map (event.1, ·))

theorem keyed_handle (states : K → S) (k : K) (e : E) : C.keyed.handle states (k, e) =
      (Function.update states k (C.handle (states k) e).1, (C.handle (states k) e).2.map (k, ·)) := rfl

def own {A : Type*} (k : K) (events : List (K × A)) : List A :=
  (events.filter (·.1 = k)).map (·.2)

variable {A : Type*} (k : K)

@[simp]
theorem own_append (events more : List (K × A)) : own k (events ++ more) = own k events ++ own k more := by
  simp [own]

theorem own_cons_self (a : A) (events : List (K × A)) : own k ((k, a) :: events) = a :: own k events := by
  simp [own]

theorem own_cons_other {j : K} (other : j ≠ k) (a : A) (events : List (K × A)) :
    own k ((j, a) :: events) = own k events := by
  simp [own, other]

theorem own_map_self (as : List A) : own k (as.map (k, ·)) = as := by
  simp [own, filter_map, comp_def]

theorem own_map_other {j : K} (other : j ≠ k) (as : List A) : own k (as.map (j, ·)) = [] := by
  simp [own, filter_map, comp_def, other]

/-- The component of a key runs on the requests of that key. -/
theorem keyed_run (states : K → S) (events : List (K × E)) :
    (C.keyed.run states events).1 k = (C.run (states k) (own k events)).1 ∧
      own k (C.keyed.run states events).2 = (C.run (states k) (own k events)).2 := by
  induction events generalizing states with
  | nil => exact ⟨rfl, rfl⟩
  | cons event events ih =>
    obtain ⟨j, e⟩ := event
    have later := ih (Function.update states j (C.handle (states j) e).1)
    by_cases same : j = k
    · subst same
      simp [own_cons_self, own_map_self, keyed_handle, later]
    · rw [update_of_ne (Ne.symm same)] at later
      simp [own_cons_other k same, own_map_other k same, keyed_handle, later]

/-- A condition on every request is one on the requests of each key. -/
theorem keyed_throughout {P : S → E → Prop} {states : K → S} {events : List (K × E)}
    (throughout : C.keyed.Throughout (fun states event => P (states event.1) event.2) states events) :
    C.Throughout P (states k) (own k events) := by
  induction events generalizing states with
  | nil => trivial
  | cons event events ih =>
    obtain ⟨j, e⟩ := event
    obtain ⟨now, onward⟩ := throughout
    have later : C.Throughout P (Function.update states j (C.handle (states j) e).1 k) (own k events) :=
      ih onward
    by_cases same : j = k
    · subst same
      rw [update_self] at later
      rw [own_cons_self]
      exact ⟨now, later⟩
    · rw [update_of_ne (Ne.symm same)] at later
      rw [own_cons_other k same]
      exact later

end

end Component
