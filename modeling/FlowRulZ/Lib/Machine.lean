import Mathlib.Logic.Relation
import Mathlib.Data.List.Infix

/-! # Deterministic machines

A machine moves from state to state until it halts with a result.  Two machines are
compared by a simulation: every move of the first is answered by at least one move of
the second, or by none while a rank falls.  As both are deterministic, this one
direction gives both: the same results and the same observed prefixes.
-/

structure Machine (σ ρ : Type*) where
  /-- The next state, or the result. -/
  next : σ → σ ⊕ ρ

namespace Machine

open List

section Runs

variable {σ ρ : Type*} (M : Machine σ ρ)

def run : Nat → σ → Option ρ
  | 0, _ => none
  | fuel + 1, s =>
    match M.next s with
    | .inl t => run fuel t
    | .inr r => some r

def Step (s t : σ) : Prop := M.next s = .inl t

def Reaches : σ → σ → Prop := Relation.ReflTransGen M.Step

def Halts (s : σ) (r : ρ) : Prop := ∃ t, M.Reaches s t ∧ M.next t = .inr r

def Always (P : σ → Prop) (s : σ) : Prop := ∀ t, M.Reaches s t → P t

/-- `p` is observed, by `obs`, at the start of the run from `s`. -/
def Emits {α : Type*} (obs : σ → List α) (s : σ) (p : List α) : Prop :=
  ∃ t, M.Reaches s t ∧ p <+: obs t

/-- Whether `P` holds in every state of a run of fewer than `fuel` moves. -/
def check (P : σ → Prop) [DecidablePred P] : Nat → σ → Bool
  | 0, _ => false
  | fuel + 1, s =>
    decide (P s) &&
      match M.next s with
      | .inl t => check P fuel t
      | .inr _ => true

variable {M} {s t u : σ} {r r' : ρ} {P : σ → Prop}

theorem step_unique (h : M.Step s t) (h' : M.Step s u) : t = u := by
  rw [Step, h, Sum.inl.injEq] at h'
  exact h'

theorem Step.not_halted (h : M.Step s t) : M.next s ≠ .inr r := by
  rw [h]
  exact Sum.inl_ne_inr

theorem rightUnique : Relator.RightUnique M.Step := fun _ _ _ => step_unique

theorem Always.here (h : M.Always P s) : P s := h s .refl

theorem Always.after (h : M.Always P s) (path : M.Reaches s t) : M.Always P t :=
  fun u later => h u (path.trans later)

theorem Always.step (h : M.Always P s) (move : M.Step s t) : M.Always P t :=
  h.after (.single move)

theorem always_of_invariant (start : P s) (keeps : ∀ {t u}, P t → M.Step t u → P u) :
    M.Always P s := by
  intro t path
  induction path with
  | refl => exact start
  | tail _ move ih => exact keeps ih move

theorem always_of_check [DecidablePred P] (fuel : Nat) (checked : M.check P fuel s = true) :
    M.Always P s := by
  induction fuel generalizing s with
  | zero => cases checked
  | succ fuel ih =>
    rw [check, Bool.and_eq_true, decide_eq_true_eq] at checked
    obtain ⟨here, later⟩ := checked
    intro t path
    rcases path.cases_head with same | ⟨u, move, onward⟩
    · exact same ▸ here
    · rw [show M.next s = .inl u from move] at later
      exact ih later t onward

theorem Reaches.of_halted (h : M.Reaches s t) (halted : M.next s = .inr r) : t = s := by
  cases h.cases_head with
  | inl same => exact same.symm
  | inr moved =>
    obtain ⟨u, move, -⟩ := moved
    exact absurd halted move.not_halted

theorem Halts.unique (h : M.Halts s r) (h' : M.Halts s r') : r = r' := by
  obtain ⟨t, path, halted⟩ := h
  obtain ⟨t', path', halted'⟩ := h'
  have same : t = t' := by
    rcases Relation.ReflTransGen.total_of_right_unique rightUnique path path' with on | on
    · exact (Reaches.of_halted on halted).symm
    · exact Reaches.of_halted on halted'
  rw [same, halted', Sum.inr.injEq] at halted
  exact halted.symm

theorem Halts.before (path : M.Reaches s t) (h : M.Halts t r) : M.Halts s r := by
  obtain ⟨u, later, halted⟩ := h
  exact ⟨u, path.trans later, halted⟩

theorem Halts.after (path : M.Reaches s t) (h : M.Halts s r) : M.Halts t r := by
  obtain ⟨u, later, halted⟩ := h
  rcases Relation.ReflTransGen.total_of_right_unique rightUnique path later with on | on
  · exact ⟨u, on, halted⟩
  · have same := Reaches.of_halted on halted
    subst same
    exact ⟨t, .refl, halted⟩

theorem Halts.induct {motive : σ → Prop} (h : M.Halts s r) (halt : ∀ s, M.next s = .inr r → motive s)
    (step : ∀ s t, M.Step s t → motive t → motive s) : motive s := by
  obtain ⟨t, path, halted⟩ := h
  induction path using Relation.ReflTransGen.head_induction_on with
  | refl => exact halt t halted
  | head move _ ih => exact step _ _ move ih

theorem halts_of_falls (rank : σ → Nat) (falls : ∀ {s t}, M.Step s t → rank t < rank s) (s : σ) : ∃ r, M.Halts s r := by
  induction left : rank s using Nat.strong_induction_on generalizing s with
  | _ k ih =>
    subst left
    cases onward : M.next s with
    | inr r => exact ⟨r, s, .refl, onward⟩
    | inl t =>
      obtain ⟨r, halts⟩ := ih (rank t) (falls onward) t rfl
      exact ⟨r, halts.before (.single onward)⟩

variable {fuel : Nat}

theorem run_succ : M.run (fuel + 1) s = some r ↔ M.next s = .inr r ∨ ∃ t, M.Step s t ∧ M.run fuel t = some r := by
  simp only [run, Step]
  cases M.next s <;> simp

/-- Running with enough fuel computes the result. -/
theorem exists_run_iff : (∃ fuel, M.run fuel s = some r) ↔ M.Halts s r := by
  constructor
  · intro h
    obtain ⟨fuel, ran⟩ := h
    induction fuel generalizing s with
    | zero => cases ran
    | succ fuel ih =>
      rcases run_succ.mp ran with halted | ⟨t, move, later⟩
      · exact ⟨s, .refl, halted⟩
      · exact (ih later).before (.single move)
  · intro h
    apply h.induct (motive := fun s => ∃ fuel, M.run fuel s = some r)
    · intro s halted
      exact ⟨1, run_succ.mpr (.inl halted)⟩
    · intro s t move h
      obtain ⟨fuel, ran⟩ := h
      exact ⟨fuel + 1, run_succ.mpr (.inr ⟨t, move, ran⟩)⟩

theorem run_mono {fuel more : Nat} (ran : M.run fuel s = some r) (enough : fuel ≤ more) : M.run more s = some r := by
  induction fuel generalizing s more with
  | zero => cases ran
  | succ fuel ih =>
    obtain ⟨more, rfl⟩ : ∃ less, more = less + 1 := ⟨more - 1, by omega⟩
    rcases run_succ.mp ran with halted | ⟨t, move, later⟩
    · exact run_succ.mpr (.inl halted)
    · exact run_succ.mpr (.inr ⟨t, move, ih later (by omega)⟩)

theorem run_step (ran : M.run fuel s = some r) (move : M.Step s t) :
    ∃ less, fuel = less + 1 ∧ M.run less t = some r := by
  cases fuel with
  | zero => cases ran
  | succ less =>
    rcases run_succ.mp ran with halted | ⟨u, move', later⟩
    · exact absurd halted move.not_halted
    · exact ⟨less, rfl, step_unique move move' ▸ later⟩

theorem run_of_reaches (ran : M.run fuel s = some r) (path : M.Reaches s t) : M.run fuel t = some r := by
  induction path with
  | refl => exact ran
  | tail _ move ih =>
    obtain ⟨less, rfl, later⟩ := run_step ih move
    exact run_mono later (by omega)

end Runs

section Recording

variable {σ ρ α : Type*}

/-- The machine that also notes what it sees on its way. -/
def recording (M : Machine σ ρ) (note : σ → List α) : Machine (σ × List α) (ρ × List α) where
  next s := (M.next s.1).map (fun t => (t, s.2 ++ note s.1)) (fun r => (r, s.2 ++ note s.1))

variable {M : Machine σ ρ} {note : σ → List α} {s t : σ} {r : ρ} {log log' : List α} {u v : σ × List α}

theorem recording_step_iff : (M.recording note).Step u v ↔ M.Step u.1 v.1 ∧ v.2 = u.2 ++ note u.1 := by
  simp only [Step, recording]
  cases M.next u.1 <;> simp [Prod.ext_iff, eq_comm]

theorem recording_halted_iff : (M.recording note).next u = .inr (r, log') ↔
    M.next u.1 = .inr r ∧ log' = u.2 ++ note u.1 := by
  simp only [recording]
  cases M.next u.1 <;> simp [eq_comm]

theorem recording_step (move : M.Step s t) : (M.recording note).Step (s, log) (t, log ++ note s) :=
  recording_step_iff.mpr ⟨move, rfl⟩

theorem recording_halted (halted : M.next s = .inr r) : (M.recording note).next (s, log) = .inr (r, log ++ note s) :=
  recording_halted_iff.mpr ⟨halted, rfl⟩

theorem recording_grows (move : (M.recording note).Step u v) : u.2 <+: v.2 := by
  rw [(recording_step_iff.mp move).2]
  exact prefix_append _ _

theorem Reaches.of_recording (path : (M.recording note).Reaches u v) : M.Reaches u.1 v.1 :=
  Relation.ReflTransGen.lift Prod.fst (fun _ _ move => (recording_step_iff.mp move).1) _ _ path

theorem Halts.of_recording (h : (M.recording note).Halts (s, log) (r, log')) : M.Halts s r := by
  obtain ⟨⟨t, noted⟩, path, halted⟩ := h
  exact ⟨t, path.of_recording, (recording_halted_iff.mp halted).1⟩

theorem recording_run_succ {fuel : Nat} : (M.recording note).run (fuel + 1) (s, log) =
    match M.next s with
    | .inl t => (M.recording note).run fuel (t, log ++ note s)
    | .inr r => some (r, log ++ note s) := by
  cases onward : M.next s <;> simp [run, recording, onward]

theorem recording_run (fuel : Nat) : ∀ (s : σ) (log : List α), (M.recording note).run fuel (s, log) =
      ((M.recording note).run fuel (s, [])).map fun r => (r.1, log ++ r.2) := by
  induction fuel with
  | zero => exact fun _ _ => rfl
  | succ fuel ih =>
    intro s log
    rw [recording_run_succ, recording_run_succ]
    cases M.next s with
    | inr r => rfl
    | inl t =>
      dsimp only
      rw [ih t (log ++ note s), ih t ([] ++ note s)]
      simp [Function.comp_def]

theorem recording_run_some {fuel : Nat} (ran : (M.recording note).run fuel (s, log) = some (r, log')) :
    ∃ rest, log' = log ++ rest ∧ (M.recording note).run fuel (s, []) = some (r, rest) := by
  rw [recording_run] at ran
  obtain ⟨⟨r', rest⟩, ran', same⟩ := Option.map_eq_some_iff.mp ran
  cases same
  exact ⟨rest, rfl, ran'⟩

theorem recording_run_first {fuel : Nat} (ran : (M.recording note).run fuel (s, log) = some (r, log')) :
    log ++ note s <+: log' := by
  cases fuel with
  | zero => cases ran
  | succ fuel =>
    rw [recording_run_succ] at ran
    split at ran
    · obtain ⟨rest, rfl, -⟩ := recording_run_some ran
      exact prefix_append _ _
    · cases ran
      exact prefix_refl _

/-- The notes of a run can be cut anywhere: the cut is in what is noted in one state of the run, and takes all of that
only in the last state. -/
theorem recording_cut {cut : List α} (h : (M.recording note).Halts (s, log) (r, log'))
    (begun : log <+: cut) (inside : cut <+: log') :
    ∃ t noted more, (M.recording note).Reaches (s, log) (t, noted) ∧ cut = noted ++ more ∧
      more <+: note t ∧ (more = note t → M.next t = .inr r) := by
  let Found (u : σ × List α) : Prop := ∃ t noted more, (M.recording note).Reaches u (t, noted) ∧
    cut = noted ++ more ∧ more <+: note t ∧ (more = note t → M.next t = .inr r)
  have whole : (s, log).2 <+: log' ∧ ((s, log).2 <+: cut → Found (s, log)) := by
    apply h.induct (motive := fun u => u.2 <+: log' ∧ (u.2 <+: cut → Found u))
    · intro u halted
      obtain ⟨ended, rfl⟩ := recording_halted_iff.mp halted
      refine ⟨prefix_append _ _, fun before => ?_⟩
      obtain ⟨more, rfl⟩ := before
      exact ⟨u.1, u.2, more, .refl, rfl, (prefix_append_right_inj _).mp inside, fun _ => ended⟩
    · intro u v move ih
      obtain ⟨moved, noted⟩ := recording_step_iff.mp move
      refine ⟨(recording_grows move).trans ih.1, fun before => ?_⟩
      by_cases later : v.2 <+: cut
      · obtain ⟨t, noted', more, path, rest⟩ := ih.2 later
        exact ⟨t, noted', more, .head move path, rest⟩
      · -- the cut is in what is noted here
        obtain ⟨more, rfl⟩ := before
        have inHere : u.2 ++ more <+: u.2 ++ note u.1 := by
          rw [← noted]
          exact (List.prefix_or_prefix_of_prefix inside ih.1).resolve_right later
        refine ⟨u.1, u.2, more, .refl, rfl, (prefix_append_right_inj _).mp inHere, ?_⟩
        rintro rfl
        exact absurd (noted ▸ prefix_refl _) later
  exact whole.2 begun

end Recording

section Results

variable {σ ρ ρ' : Type*}

def mapResult (M : Machine σ ρ) (g : ρ → ρ') : Machine σ ρ' where
  next s := (M.next s).map id g

variable {M : Machine σ ρ} {g : ρ → ρ'} {s t : σ}

theorem mapResult_step : (M.mapResult g).Step s t ↔ M.Step s t := by
  simp only [Step, mapResult]
  cases M.next s <;> simp

theorem mapResult_halted {r : ρ'} : (M.mapResult g).next s = .inr r ↔ ∃ r', M.next s = .inr r' ∧ g r' = r := by
  simp only [mapResult]
  cases M.next s <;> simp

theorem mapResult_reaches : (M.mapResult g).Reaches s t ↔ M.Reaches s t := by
  have same : (M.mapResult g).Step = M.Step := by
    funext s t
    exact propext mapResult_step
  rw [Reaches, same]
  rfl

theorem mapResult_emits {α : Type*} {obs : σ → List α} {p : List α} :
    (M.mapResult g).Emits obs s p ↔ M.Emits obs s p := by
  simp only [Emits, mapResult_reaches]

theorem mapResult_halts {r : ρ'} : (M.mapResult g).Halts s r ↔ ∃ r', M.Halts s r' ∧ g r' = r := by
  constructor
  · intro h
    obtain ⟨t, path, halted⟩ := h
    obtain ⟨r', ended, same⟩ := mapResult_halted.mp halted
    exact ⟨r', ⟨t, mapResult_reaches.mp path, ended⟩, same⟩
  · intro h
    obtain ⟨r', ⟨t, path, ended⟩, same⟩ := h
    exact ⟨t, mapResult_reaches.mpr path, mapResult_halted.mpr ⟨r', ended, same⟩⟩

end Results

section Simulation

variable {σ τ ρ α : Type*} {M : Machine σ ρ} {N : Machine τ ρ}

/-- `N` follows `M`: related states halt with the same result, and a move of `M` is answered by moves of `N`, or by none
if `rank` falls. -/
structure Simulates (M : Machine σ ρ) (N : Machine τ ρ) (R : σ → τ → Prop) (rank : σ → Nat) :
    Prop where
  halt : ∀ {s t r}, R s t → M.next s = .inr r → ∃ t', N.Reaches t t' ∧ N.next t' = .inr r ∧ R s t'
  step : ∀ {s t s'}, R s t → M.Step s s' →
    (∃ t', Relation.TransGen N.Step t t' ∧ R s' t') ∨ (R s' t ∧ rank s' < rank s)

variable {R : σ → τ → Prop} {rank : σ → Nat} {t : τ}

/-- What `N` owes for a move of `M`, or for its end. -/
def Answers (N : Machine τ ρ) (R : σ → τ → Prop) (rank : σ → Nat) (s : σ) (t : τ) : σ ⊕ ρ → Prop
  | .inl s' => (∃ t', Relation.TransGen N.Step t t' ∧ R s' t') ∨ (R s' t ∧ rank s' < rank s)
  | .inr r => ∃ t', N.Reaches t t' ∧ N.next t' = .inr r ∧ R s t'

theorem Simulates.of_next (answers : ∀ s t, R s t → N.Answers R rank s t (M.next s)) : Simulates M N R rank where
  halt {s t r} related halted := (halted ▸ answers s t related : N.Answers R rank s t (.inr r))
  step {s t s'} related move := (move ▸ answers s t related : N.Answers R rank s t (.inl s'))

/-- If `N` answers whatever `M` does while an invariant holds, it follows `M`. -/
theorem Simulates.of_answers {I : σ → Prop} (kept : ∀ {s s'}, I s → M.Step s s' → I s')
    (answers : ∀ s t, R s t → I s → N.Answers R rank s t (M.next s)) :
    Simulates M N (fun s t => R s t ∧ I s) rank where
  halt := by
    rintro s t r ⟨related, now⟩ halted
    obtain ⟨t', path, ended, after⟩ := halted ▸ answers s t related now
    exact ⟨t', path, ended, after, now⟩
  step := by
    rintro s t s' ⟨related, now⟩ move
    have later := kept now move
    rcases move ▸ answers s t related now with ⟨t', path, after⟩ | ⟨after, less⟩
    · exact .inl ⟨t', path, after, later⟩
    · exact .inr ⟨⟨after, later⟩, less⟩

/-- `N` gets to a state where it does the same as `M`. -/
theorem Answers.of_map {s : σ} {t' : τ} {out : σ ⊕ ρ} (f : σ → τ) (path : N.Reaches t t')
    (same : N.next t' = out.map f id) (related : R s t') (onward : ∀ s', out = .inl s' → R s' (f s')) :
    N.Answers R rank s t out := by
  cases out with
  | inl s' => exact .inl ⟨f s', .tail' path same, onward s' rfl⟩
  | inr r => exact ⟨t', path, same, related⟩

theorem Simulates.reaches (sim : Simulates M N R rank) {s s' : σ} (related : R s t)
    (path : M.Reaches s s') : ∃ t', N.Reaches t t' ∧ R s' t' := by
  induction path with
  | refl => exact ⟨t, .refl, related⟩
  | tail _ move ih =>
    obtain ⟨u, before, mid⟩ := ih
    rcases sim.step mid move with ⟨t', moved, after⟩ | ⟨after, -⟩
    · exact ⟨t', before.trans moved.to_reflTransGen, after⟩
    · exact ⟨u, before, after⟩

variable {s : σ}

section

variable (sim : Simulates M N R rank) (related : R s t)
include sim related

/-- Where `N` moves, `M` gets to a state that is related to a later one of `N`. -/
theorem Simulates.meets {t₁ : τ} (move : N.Step t t₁) : ∃ s' t', M.Reaches s s' ∧ N.Reaches t₁ t' ∧ R s' t' := by
  induction hk : rank s using Nat.strong_induction_on generalizing s with
  | _ k ih =>
    subst hk
    cases next : M.next s with
    | inr r =>
      obtain ⟨t', path, halted, ended⟩ := sim.halt related next
      rcases path.cases_head with rfl | ⟨u, first, later⟩
      · exact absurd halted move.not_halted
      · exact ⟨s, t', .refl, step_unique first move ▸ later, ended⟩
    | inl s' =>
      rcases sim.step related next with ⟨t', path, after⟩ | ⟨after, less⟩
      · obtain ⟨u, first, later⟩ := Relation.TransGen.head'_iff.mp path
        exact ⟨s', t', .single next, step_unique first move ▸ later, after⟩
      · obtain ⟨s'', t', gone, later, ended⟩ := ih _ less after rfl
        exact ⟨s'', t', gone.head next, later, ended⟩

theorem Simulates.covers {t₁ : τ} (path : N.Reaches t t₁) : ∃ s' t', M.Reaches s s' ∧ N.Reaches t₁ t' ∧ R s' t' := by
  induction path with
  | refl => exact ⟨s, t, .refl, .refl, related⟩
  | tail _ move ih =>
    obtain ⟨s', t', gone, later, ended⟩ := ih
    rcases later.cases_head with rfl | ⟨u, first, onward⟩
    · obtain ⟨s'', t'', gone', onward, ended'⟩ := sim.meets ended move
      exact ⟨s'', t'', gone.trans gone', onward, ended'⟩
    · exact ⟨s', t', gone, step_unique first move ▸ onward, ended⟩

theorem Simulates.halts_of_halted {r : ρ} (halted : N.next t = .inr r) : M.Halts s r := by
  induction hk : rank s using Nat.strong_induction_on generalizing s with
  | _ k ih =>
    subst hk
    cases move : M.next s with
    | inr r' =>
      obtain ⟨t', onward, ended, -⟩ := sim.halt related move
      have same := Reaches.of_halted onward halted
      subst same
      rw [ended, Sum.inr.injEq] at halted
      exact ⟨s, .refl, halted ▸ move⟩
    | inl s' =>
      rcases sim.step related move with ⟨t', moved, -⟩ | ⟨after, less⟩
      · obtain ⟨u, gone, -⟩ := Relation.TransGen.head'_iff.mp moved
        exact absurd halted gone.not_halted
      · exact (ih _ less after rfl).before (.single move)

theorem Simulates.halts_iff {r : ρ} : M.Halts s r ↔ N.Halts t r := by
  constructor
  · intro h
    obtain ⟨s', path, halted⟩ := h
    obtain ⟨t', before, mid⟩ := sim.reaches related path
    obtain ⟨t'', onward, ended, -⟩ := sim.halt mid halted
    exact ⟨t'', before.trans onward, ended⟩
  · intro h
    obtain ⟨t₁, path, halted⟩ := h
    obtain ⟨s', t', gone, onward, ended⟩ := sim.covers related path
    have same := Reaches.of_halted onward halted
    subst same
    exact Halts.before gone (sim.halts_of_halted ended halted)

end

theorem Reaches.obs_prefix {obs : τ → List α} (grows : ∀ t t', N.Step t t' → obs t <+: obs t')
    {t t' : τ} (path : N.Reaches t t') : obs t <+: obs t' := by
  induction path with
  | refl => exact prefix_rfl
  | tail _ move ih => exact ih.trans (grows _ _ move)

theorem Simulates.emits_iff (sim : Simulates M N R rank) {obs : σ → List α} {obs' : τ → List α}
    (same : ∀ s t, R s t → obs s = obs' t)
    (grows : ∀ t t', N.Step t t' → obs' t <+: obs' t')
    {p : List α} (related : R s t) : M.Emits obs s p ↔ N.Emits obs' t p := by
  constructor
  · intro h
    obtain ⟨s', path, start⟩ := h
    obtain ⟨t', onward, ended⟩ := sim.reaches related path
    exact ⟨t', onward, same _ _ ended ▸ start⟩
  · intro h
    obtain ⟨t₁, path, start⟩ := h
    obtain ⟨s', t', gone, onward, ended⟩ := sim.covers related path
    refine ⟨s', gone, start.trans ?_⟩
    rw [same _ _ ended]
    exact Reaches.obs_prefix grows onward

/-- `N` follows `M` move by move and sees the same on its way, except that it leaves out moves at which nothing is seen
and `rank` falls. -/
structure Tracks (M : Machine σ ρ) (N : Machine τ ρ) (note : σ → List α) (note' : τ → List α)
    (R : σ → τ → Prop) (rank : σ → Nat) : Prop where
  halt : ∀ {s t r}, R s t → M.next s = .inr r → N.next t = .inr r ∧ note s = note' t
  step : ∀ {s t s'}, R s t → M.Step s s' →
    (∃ t', N.Step t t' ∧ R s' t' ∧ note s = note' t) ∨ (R s' t ∧ rank s' < rank s ∧ note s = [])

theorem Tracks.simulates {note : σ → List α} {note' : τ → List α} (tracks : Tracks M N note note' R rank) :
    Simulates (M.recording note) (N.recording note') (fun u v => R u.1 v.1 ∧ u.2 = v.2) (fun u => rank u.1) where
  halt := by
    rintro ⟨s, log⟩ ⟨t, log'⟩ r ⟨related, same⟩ halted
    obtain rfl : log = log' := same
    obtain ⟨ended, noted⟩ := recording_halted_iff.mp halted
    obtain ⟨ended', seen⟩ := tracks.halt related ended
    exact ⟨(t, log), .refl, recording_halted_iff.mpr ⟨ended', seen ▸ noted⟩, related, rfl⟩
  step := by
    rintro ⟨s, log⟩ ⟨t, log'⟩ ⟨s', later⟩ ⟨related, same⟩ move
    obtain rfl : log = log' := same
    obtain ⟨moved, noted⟩ := recording_step_iff.mp move
    obtain rfl : later = log ++ note s := noted
    rcases tracks.step related moved with ⟨t', moved', after, seen⟩ | ⟨after, less, nothing⟩
    · exact .inl ⟨(t', log ++ note' t), .single (recording_step moved'), after, by rw [seen]⟩
    · exact .inr ⟨⟨after, by rw [nothing, append_nil]⟩, less⟩

end Simulation

section Pace

variable {σ τ ρ ρ' α : Type*} {M : Machine σ ρ} {N : Machine τ ρ'} {R : σ → τ → Prop} {S : ρ → ρ' → Prop}

/-- Two machines that meet again and again: from related states both halt, with related results, or both move on to
related states. -/
def Paces (M : Machine σ ρ) (N : Machine τ ρ') (R : σ → τ → Prop) (S : ρ → ρ' → Prop) : Prop :=
  ∀ s t, R s t → (∃ r r', M.Halts s r ∧ N.Halts t r' ∧ S r r') ∨
    ∃ s' t', Relation.TransGen M.Step s s' ∧ Relation.TransGen N.Step t t' ∧ R s' t'

/-- What a run shows on its way, or in its result. -/
def Shows (M : Machine σ ρ) (obs : σ → List α) (result : ρ → List α) (s : σ) (p : List α) : Prop :=
  M.Emits obs s p ∨ ∃ r, M.Halts s r ∧ p <+: result r

section

variable (paces : Paces M N R S)
include paces

theorem Paces.symm : Paces N M (fun t s => R s t) (fun r' r => S r r') := by
  intro t s related
  rcases paces s t related with ⟨r, r', halts, halts', alike⟩ | ⟨s', t', path, path', after⟩
  · exact .inl ⟨r', r, halts', halts, alike⟩
  · exact .inr ⟨t', s', path', path, after⟩

theorem Paces.halts {s : σ} {t : τ} {r : ρ} (related : R s t) (halts : M.Halts s r) : ∃ r', N.Halts t r' ∧ S r r' := by
  obtain ⟨fuel, ran⟩ := exists_run_iff.mpr halts
  induction fuel using Nat.strong_induction_on generalizing s t with
  | _ fuel ih =>
    rcases paces s t related with ⟨r₁, r', halts₁, halts', alike⟩ | ⟨s', t', path, path', after⟩
    · exact ⟨r', halts', halts.unique halts₁ ▸ alike⟩
    · obtain ⟨u, move, later⟩ := Relation.TransGen.head'_iff.mp path
      obtain ⟨less, rfl, onward⟩ := run_step ran move
      obtain ⟨r', halts', alike⟩ := ih less (Nat.lt_succ_self less) after
        (halts.after path.to_reflTransGen) (run_of_reaches onward later)
      exact ⟨r', halts'.before path'.to_reflTransGen, alike⟩

/-- Wherever `M` goes, both halt or it gets to a later state that is related to one of `N`. -/
theorem Paces.covers {s u : σ} {t : τ} (related : R s t) (path : M.Reaches s u) :
    (∃ r r', M.Halts s r ∧ N.Halts t r' ∧ S r r') ∨ ∃ s' t', M.Reaches u s' ∧ N.Reaches t t' ∧ R s' t' := by
  induction path with
  | refl => exact .inr ⟨s, t, .refl, .refl, related⟩
  | tail path move ih =>
    rcases ih with ended | ⟨s', t', later, before, after⟩
    · exact .inl ended
    rcases later.cases_head with rfl | ⟨v, first, onward⟩
    · rcases paces _ t' after with ⟨r, r', halts, halts', alike⟩ | ⟨s'', t'', gone, gone', after'⟩
      · exact .inl ⟨r, r', halts.before path, halts'.before before, alike⟩
      · obtain ⟨v, first, onward⟩ := Relation.TransGen.head'_iff.mp gone
        exact .inr ⟨s'', t'', step_unique first move ▸ onward, before.trans gone'.to_reflTransGen, after'⟩
    · exact .inr ⟨s', t', step_unique first move ▸ onward, before, after⟩

theorem Paces.shows {obs : σ → List α} {obs' : τ → List α} {result : ρ → List α}
    {result' : ρ' → List α} (same : ∀ s t, R s t → obs s = obs' t)
    (sameEnd : ∀ r r', S r r' → result r = result' r')
    (grows : ∀ s s', M.Step s s' → obs s <+: obs s')
    (ends : ∀ s r, M.next s = .inr r → obs s <+: result r) {s : σ} {t : τ} {p : List α} (related : R s t)
    (shown : M.Shows obs result s p) : N.Shows obs' result' t p := by
  rcases shown with ⟨u, path, start⟩ | ⟨r, halts, start⟩
  · rcases paces.covers related path with ⟨r, r', halts, halts', alike⟩ | ⟨s', t', later, before, after⟩
    · obtain ⟨v, onward, halted⟩ := halts.after path
      have seen := start.trans ((Reaches.obs_prefix grows onward).trans (ends v r halted))
      exact .inr ⟨r', halts', sameEnd r r' alike ▸ seen⟩
    · exact .inl ⟨t', before, same s' t' after ▸ start.trans (Reaches.obs_prefix grows later)⟩
  · obtain ⟨r', halts', alike⟩ := paces.halts related halts
    exact .inr ⟨r', halts', sameEnd r r' alike ▸ start⟩

end

end Pace

end Machine
