import FlowRulZ.Lib.Routine

/-! # Lock discipline

Threads share a state in which some data is protected by a lock.  A thread that holds the
lock knows the data, since no other thread changes it; a thread that does not hold the lock
knows only facts that stay true.  A routine is checked on its own, action by action, and
then it keeps its promise among any others.
-/

/-- What a lock protects, and what a thread may know without it. -/
structure Discipline (S D K : Type) where
  inv : S → Prop
  locked : S → Bool
  data : S → D
  /-- A fact that stays true once it is. -/
  knows : K → S → Prop

namespace Discipline

open List Function

variable {S D K R : Type} (d : Discipline S D K)

/-- An action of a thread that holds the lock before or after it, with the data it then knows. -/
structure Allowed (held held' : Option D) (s s' : S) : Prop where
  inv : d.inv s'
  kept : ∀ fact, d.knows fact s → d.knows fact s'
  lock : match held, held' with
    | none, none => d.locked s' = d.locked s ∧ d.data s' = d.data s
    | none, some data => d.locked s = false ∧ d.locked s' = true ∧ d.data s' = data
    | some _, some data => d.locked s' = true ∧ d.data s' = data
    | some _, none => True

def Holds (held : Option D) (s : S) : Prop := ∀ data, held = some data → d.locked s = true ∧ d.data s = data

/-- Every action of a routine is allowed and stands in a relation, and its result is justified by what it then knows. -/
def Acts (rel : S → S → Prop) (post : K → R → Prop) : Routine S R → Option D → K → Prop
  | .ret r, _, fact => post fact r
  | .panic, _, _ => True
  | .step guard update next, held, fact => ∀ s, d.inv s → d.Holds held s → d.knows fact s → guard s = true →
      rel s (update s) ∧ ∃ held' fact', d.Allowed held held' s (update s) ∧ d.knows fact' (update s) ∧
        Acts rel post (next s) held' fact'

/-- Every thread has a label that says what its actions do, and at most one holds the lock. -/
structure Orderly {L : Type} (rel : L → S → S → Prop) (post : K → R → Prop) (labels : List L)
    (sys : System S R) (held : Nat → Option D) (fact : Nat → K) : Prop where
  inv : d.inv sys.state
  aligned : labels.length = sys.threads.length
  acts : ∀ i p l, sys.threads[i]? = some p → labels[i]? = some l →
    d.Acts (rel l) post p (held i) (fact i) ∧ d.knows (fact i) sys.state
  holds : ∀ i, d.Holds (held i) sys.state
  alone : ∀ i j, held i ≠ none → held j ≠ none → i = j

variable {d} {L : Type} {rel : L → S → S → Prop} {post : K → R → Prop} {labels : List L} {sys : System S R}
  {held : Nat → Option D} {fact : Nat → K}

theorem Allowed.others {before after other : Option D} {s s' : S} (allowed : d.Allowed before after s s')
    (holds : d.Holds other s) (alone : before ≠ none → other = none) :
    d.Holds other s' ∧ (after ≠ none → other = none) := by
  have lock := allowed.lock
  cases other with
  | none => exact ⟨nofun, fun _ => rfl⟩
  | some data =>
    obtain ⟨locked, same⟩ := holds data rfl
    cases before with
    | some own => cases alone nofun
    | none =>
      cases after with
      | none =>
        refine ⟨?_, fun held => absurd rfl held⟩
        rintro _ ⟨⟩
        exact ⟨lock.1.trans locked, lock.2.trans same⟩
      | some own =>
        rw [lock.1] at locked
        cases locked

theorem Allowed.own {before after : Option D} {s s' : S} (allowed : d.Allowed before after s s') :
    d.Holds after s' := by
  rintro data rfl
  have lock := allowed.lock
  cases before with
  | none => exact lock.2
  | some own => exact lock

section

variable (orderly : d.Orderly rel post labels sys held fact)
include orderly

/-- Threads that are checked stay so when one of them acts. -/
theorem Orderly.go (i : Nat) : ∃ held' fact', d.Orderly rel post labels (sys.go i) held' fact' := by
  unfold System.go
  split
  · rename_i guard update next here
    split_ifs with passes
    · have inside : i < sys.threads.length := (List.getElem?_eq_some_iff.mp here).1
      obtain ⟨acts, knows⟩ := orderly.acts i _ _ here (getElem?_eq_getElem (orderly.aligned.symm ▸ inside))
      obtain ⟨-, after, known, allowed, known', rest⟩ :=
        acts sys.state orderly.inv (orderly.holds i) knows passes
      have others (j : Nat) (other : j ≠ i) :=
        allowed.others (orderly.holds j) fun own => by
          by_contra both
          exact other (orderly.alone j i both own)
      refine ⟨Function.update held i after, Function.update fact i known, allowed.inv, ?_, ?_, ?_, ?_⟩
      · rw [length_set]
        exact orderly.aligned
      · intro j p l there labelled
        by_cases own : j = i
        · subst own
          rw [getElem?_set_self inside] at there
          rw [getElem?_eq_getElem (orderly.aligned.symm ▸ inside)] at labelled
          cases there
          cases labelled
          simp only [update_self]
          exact ⟨rest, known'⟩
        · rw [getElem?_set_ne (Ne.symm own)] at there
          simp only [update_of_ne own]
          obtain ⟨acts', knows'⟩ := orderly.acts j p l there labelled
          exact ⟨acts', allowed.kept _ knows'⟩
      · intro j
        by_cases own : j = i
        · subst own
          rw [update_self]
          exact allowed.own
        · rw [update_of_ne own]
          exact (others j own).1
      · intro j k first second
        by_cases own : j = i
        · by_cases own' : k = i
          · exact own.trans own'.symm
          · subst own
            rw [update_self] at first
            rw [update_of_ne own'] at second
            exact absurd ((others k own').2 first) second
        · by_cases own' : k = i
          · subst own'
            rw [update_of_ne own] at first
            rw [update_self] at second
            exact absurd ((others j own).2 second) first
          · rw [update_of_ne own] at first
            rw [update_of_ne own'] at second
            exact orderly.alone j k first second
    · exact ⟨held, fact, orderly⟩
  · exact ⟨held, fact, orderly⟩

theorem Orderly.spawn {p : Routine S R} {l : L}
    {known : K} (acts : d.Acts (rel l) post p none known) (knows : d.knows known sys.state) :
    ∃ held' fact', d.Orderly rel post (labels ++ [l]) ⟨sys.state, sys.threads ++ [p]⟩ held' fact' := by
  refine ⟨Function.update held sys.threads.length none, Function.update fact sys.threads.length known,
    orderly.inv, ?_, ?_, ?_, ?_⟩
  · simp [orderly.aligned]
  · intro i q l' there labelled
    by_cases new : i = sys.threads.length
    · subst new
      rw [getElem?_concat_length] at there
      rw [← orderly.aligned, getElem?_concat_length] at labelled
      cases there
      cases labelled
      simp only [update_self]
      exact ⟨acts, knows⟩
    · have inside : i < sys.threads.length := by
        have := (List.getElem?_eq_some_iff.mp there).1
        simp at this
        omega
      rw [getElem?_append_left inside] at there
      rw [getElem?_append_left (orderly.aligned.symm ▸ inside)] at labelled
      simp only [update_of_ne new]
      exact orderly.acts i q l' there labelled
  · intro i
    by_cases new : i = sys.threads.length
    · subst new
      rw [update_self]
      exact nofun
    · rw [update_of_ne new]
      exact orderly.holds i
  · intro i j first second
    have old {k : Nat} (held' : Function.update held sys.threads.length none k ≠ none) : held k ≠ none := by
      by_cases new : k = sys.threads.length
      · subst new
        rw [update_self] at held'
        exact absurd rfl held'
      · rwa [update_of_ne new] at held'
    exact orderly.alone i j (old first) (old second)

theorem Orderly.does {i : Nat} {l : L}
    (labelled : labels[i]? = some l) (still : ∀ s, rel l s s) : rel l sys.state (sys.go i).state := by
  unfold System.go
  split
  · rename_i guard update next here
    split_ifs with passes
    · obtain ⟨acts, knows⟩ := orderly.acts i _ l here labelled
      exact (acts sys.state orderly.inv (orderly.holds i) knows passes).1
    · exact still _
  · exact still _

theorem Orderly.returned {i : Nat} {r : R} (here : sys.threads[i]? = some (.ret r)) :
    ∃ known, post known r ∧ d.knows known sys.state :=
  ⟨fact i, orderly.acts i _ _ here (getElem?_eq_getElem (orderly.aligned.symm ▸ (List.getElem?_eq_some_iff.mp here).1))⟩

end

end Discipline
