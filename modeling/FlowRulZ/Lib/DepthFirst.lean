import Mathlib.Data.Finset.Card
import Mathlib.Logic.Relation
import Mathlib.Logic.Function.Basic

/-! # Depth-first search for a cycle

The search marks the nodes it has visited and the nodes on its path.  A node that is visited and
not on the path is done: its children are done, and no cycle goes through it.  A child that is on
the path closes a cycle, since every node of the path reaches the last one.
-/

namespace DepthFirst

open List

structure Marks (V : Type*) where
  visited : V → Bool
  onPath : V → Bool

variable {V : Type*}

def Marks.Done (m : Marks V) (v : V) : Prop := m.visited v = true ∧ m.onPath v = false

variable (children : V → List V)

def Edge (v w : V) : Prop := w ∈ children v

structure Sound (m : Marks V) : Prop where
  path : ∀ {v}, m.onPath v = true → m.visited v = true
  closed : ∀ {v w}, m.Done v → Edge children v w → m.Done w
  acyclic : ∀ {v}, m.Done v → ¬ Relation.TransGen (Edge children) v v

structure Extends (m m' : Marks V) : Prop where
  sound : Sound children m'
  path : m'.onPath = m.onPath
  grows : ∀ {v}, m.visited v = true → m'.visited v = true

section

variable {children} {m m' m'' : Marks V} {v w : V}

theorem Extends.done (further : Extends children m m') (done : m.Done v) : m'.Done v :=
  ⟨further.grows done.1, by rw [further.path]; exact done.2⟩

theorem Extends.trans (first : Extends children m m') (second : Extends children m' m'') : Extends children m m'' :=
  ⟨second.sound, second.path.trans first.path, fun seen => second.grows (first.grows seen)⟩

theorem Sound.done_of_reaches (sound : Sound children m) (done : m.Done v)
    (path : Relation.ReflTransGen (Edge children) v w) : m.Done w := by
  induction path with
  | refl => exact done
  | tail _ edge ih => exact sound.closed ih edge

theorem Sound.not_onPath (sound : Sound children m) (fresh : m.visited v = false) : m.onPath v = false := by
  by_contra on
  rw [sound.path (by simpa using on)] at fresh
  cases fresh

end

/-- Looking at a child, unless a cycle was found before. -/
def visit (search : V → Marks V → Bool × Marks V) (found : Bool × Marks V) (w : V) : Bool × Marks V :=
  if found.1 then found
  else if found.2.visited w then (found.2.onPath w, found.2)
  else search w found.2

section

variable {children} {m : Marks V}

def Outcome (children : V → List V) (m : Marks V) (result : Bool × Marks V) (done : V → Prop) : Prop :=
  (result.1 = true ∧ ∃ u, Relation.TransGen (Edge children) u u) ∨
    (result.1 = false ∧ Extends children m result.2 ∧ ∀ v, done v → result.2.Done v)

theorem foldl_found {step : Bool × Marks V → V → Bool × Marks V} (stops : ∀ found w, found.1 = true → step found w = found)
    (ws : List V) {found : Bool × Marks V} (there : found.1 = true) : ws.foldl step found = found :=
  foldl_fixed' (fun w => stops found w there) ws

theorem visit_found (search : V → Marks V → Bool × Marks V) (found : Bool × Marks V) (w : V)
    (there : found.1 = true) : visit search found w = found := if_pos there

def left (nodes : Finset V) (m : Marks V) : Nat := (nodes.filter fun v => m.visited v = false).card

theorem left_extends {nodes : Finset V} {m' : Marks V} (further : Extends children m m') :
    left nodes m' ≤ left nodes m := by
  refine Finset.card_le_card fun u inside => ?_
  rw [Finset.mem_filter] at inside ⊢
  refine ⟨inside.1, ?_⟩
  by_contra seen
  rw [further.grows (by simpa using seen)] at inside
  cases inside.2

end

variable [DecidableEq V]

def Marks.enter (m : Marks V) (v : V) : Marks V :=
  ⟨Function.update m.visited v true, Function.update m.onPath v true⟩

def Marks.leave (m : Marks V) (v : V) : Marks V := ⟨m.visited, Function.update m.onPath v false⟩

/-- The search from a node: whether a cycle was found, and the marks it leaves. -/
def search : Nat → V → Marks V → Bool × Marks V
  | 0, _, m => (false, m)
  | fuel + 1, v, m =>
    let result := (children v).foldl (visit (search fuel)) (false, m.enter v)
    if result.1 then result else (false, result.2.leave v)

/-- Going on with the next node, unless a cycle was found or the node was visited before. -/
def goOn (fuel : Nat) (found : Bool × Marks V) (v : V) : Bool × Marks V :=
  if found.1 then found
  else if found.2.visited v then found
  else search children fuel v found.2

def detect (fuel : Nat) (order : List V) : Bool × Marks V :=
  order.foldl (goOn children fuel) (false, ⟨fun _ => false, fun _ => false⟩)

section

variable {children} {m : Marks V} {v w : V}

open Marks

theorem done_enter : (m.enter v).Done w ↔ w ≠ v ∧ m.Done w := by
  by_cases same : w = v
  · subst same
    simp [Marks.Done, enter]
  · simp [Marks.Done, enter, same]

theorem Sound.enter (sound : Sound children m) (fresh : m.visited v = false) : Sound children (m.enter v) where
  path {u} on := by
    by_cases same : u = v
    · subst same
      exact Function.update_self ..
    · simp only [Marks.enter, Function.update_of_ne same] at on ⊢
      exact sound.path on
  closed {u w} done edge := by
    have child := sound.closed (done_enter.mp done).2 edge
    refine done_enter.mpr ⟨?_, child⟩
    rintro rfl
    rw [child.1] at fresh
    cases fresh
  acyclic done := sound.acyclic (done_enter.mp done).2

theorem done_leave : (m.leave v).Done w ↔ m.Done w ∨ w = v ∧ m.visited v = true := by
  by_cases same : w = v
  · subst same
    simp only [Marks.Done, leave, Function.update_self, true_and, and_true]
    exact ⟨.inr, fun either => either.elim And.left id⟩
  · simp [Marks.Done, leave, same]

/-- A node whose children are all done can be left. -/
theorem Sound.leave (sound : Sound children m) (on : m.onPath v = true)
    (finished : ∀ w ∈ children v, m.Done w) : Sound children (m.leave v) where
  path {u} on := by
    by_cases same : u = v
    · subst same
      simp [leave] at on
    · simp only [Marks.leave, Function.update_of_ne same] at on
      exact sound.path on
  closed {u w} done edge := by
    refine done_leave.mpr (.inl ?_)
    rcases done_leave.mp done with old | ⟨rfl, -⟩
    · exact sound.closed old edge
    · exact finished w edge
  acyclic {u} done cycle := by
    rcases done_leave.mp done with old | ⟨rfl, -⟩
    · exact sound.acyclic old cycle
    · -- a cycle through the node would make it done before
      obtain ⟨w, edge, back⟩ := Relation.TransGen.head'_iff.mp cycle
      have early := sound.done_of_reaches (finished w edge) back
      rw [early.2] at on
      cases on

variable {nodes : Finset V}

theorem left_enter (known : v ∈ nodes) (fresh : m.visited v = false) : left nodes (m.enter v) < left nodes m := by
  refine Finset.card_lt_card (Finset.ssubset_iff_of_subset ?_ |>.mpr ⟨v, ?_, ?_⟩)
  · intro u inside
    rw [Finset.mem_filter] at inside ⊢
    refine ⟨inside.1, ?_⟩
    have unseen := inside.2
    by_cases same : u = v
    · rw [same]
      exact fresh
    · simpa only [enter, Function.update_of_ne same] using unseen
  · exact Finset.mem_filter.mpr ⟨known, fresh⟩
  · rw [Finset.mem_filter]
    simp [enter]

/-- The search from a node that is not visited and that every node of the path reaches. -/
def Searches (children : V → List V) (nodes : Finset V) (fuel : Nat) : Prop :=
  ∀ {v : V} {m : Marks V}, Sound children m → m.visited v = false →
    (∀ u, m.onPath u = true → Relation.TransGen (Edge children) u v) → v ∈ nodes → left nodes m ≤ fuel →
    Outcome children m (search children fuel v m) (· = v)

variable {fuel : Nat}

theorem visit_all (searches : Searches children nodes fuel)
    {ws : List V} (known : ∀ w ∈ ws, w ∈ nodes) (sound : Sound children m)
    (path : ∀ w ∈ ws, ∀ u, m.onPath u = true → Relation.TransGen (Edge children) u w)
    (enough : left nodes m ≤ fuel) :
    Outcome children m (ws.foldl (visit (search children fuel)) (false, m)) (· ∈ ws) := by
  induction ws generalizing m with
  | nil => exact .inr ⟨rfl, ⟨sound, rfl, id⟩, fun w inside => absurd inside not_mem_nil⟩
  | cons w ws ih =>
    rw [forall_mem_cons] at path known
    rw [foldl_cons, visit, if_neg Bool.false_ne_true]
    -- the rest of the nodes, from marks that know this one as done
    have rest : ∀ {m' : Marks V}, Extends children m m' → m'.Done w →
        Outcome children m (ws.foldl (visit (search children fuel)) (false, m')) (· ∈ w :: ws) := by
      intro m' further done
      have path' : ∀ w ∈ ws, ∀ u, m'.onPath u = true → Relation.TransGen (Edge children) u w := by
        rw [further.path]
        exact path.2
      rcases ih known.2 further.sound path' ((left_extends further).trans enough) with
        found | ⟨nothing, further', done'⟩
      · exact .inl found
      · exact .inr ⟨nothing, further.trans further', forall_mem_cons.mpr ⟨further'.done done, done'⟩⟩
    cases seen : m.visited w with
    | true =>
      cases on : m.onPath w with
      | true =>
        rw [foldl_found (visit_found _) _ rfl]
        exact .inl ⟨rfl, w, path.1 w on⟩
      | false => exact rest ⟨sound, rfl, id⟩ ⟨seen, on⟩
    | false =>
      rw [if_neg Bool.false_ne_true]
      rcases searches sound seen path.1 known.1 enough with
        found | ⟨nothing, further, done⟩
      · rw [foldl_found (visit_found _) _ found.1]
        exact .inl found
      · have same : search children fuel w m = (false, (search children fuel w m).2) :=
          Prod.ext nothing rfl
        rw [same]
        exact rest further (done w rfl)

theorem searches (known : ∀ v ∈ nodes, ∀ w ∈ children v, w ∈ nodes) (fuel : Nat) : Searches children nodes fuel := by
  induction fuel with
  | zero =>
    intro v m _ fresh _ inside none
    have some : 0 < left nodes m := Finset.card_pos.mpr ⟨v, Finset.mem_filter.mpr ⟨inside, fresh⟩⟩
    omega
  | succ fuel ih =>
    intro v m sound fresh path inside enough
    have off := sound.not_onPath fresh
    have reaches : ∀ w ∈ children v, ∀ u, (m.enter v).onPath u = true → Relation.TransGen (Edge children) u w := by
      intro w edge u on
      by_cases same : u = v
      · exact same ▸ .single edge
      · simp only [enter, Function.update_of_ne same] at on
        exact (path u on).tail edge
    have less := left_enter inside fresh
    rw [search]
    rcases visit_all ih (known v inside) (sound.enter fresh) reaches (by omega) with
      found | ⟨nothing, further, done⟩
    · rw [if_pos found.1]
      exact .inl found
    · rw [if_neg (by simp [nothing])]
      have on : ((children v).foldl (visit (search children fuel)) (false, m.enter v)).2.onPath v = true := by
        rw [further.path]
        exact Function.update_self ..
      refine .inr ⟨rfl, ⟨further.sound.leave on done, ?_, ?_⟩, ?_⟩
      · rw [leave, further.path, enter, Function.update_idem, ← off, Function.update_eq_self]
      · intro u seen
        apply further.grows
        by_cases same : u = v
        · rw [same]
          exact Function.update_self ..
        · simpa only [enter, Function.update_of_ne same] using seen
      · rintro u rfl
        exact done_leave.mpr (.inr ⟨rfl, further.grows (Function.update_self ..)⟩)

theorem goOn_found (found : Bool × Marks V) (v : V) (there : found.1 = true) :
    goOn children fuel found v = found := if_pos there

theorem foldl_goOn (searches : Searches children nodes fuel)
    {order : List V} (known : ∀ v ∈ order, v ∈ nodes) (sound : Sound children m)
    (off : ∀ v, m.onPath v = false) (enough : left nodes m ≤ fuel) :
    order.foldl (goOn children fuel) (false, m) = order.foldl (visit (search children fuel)) (false, m) := by
  induction order generalizing m with
  | nil => rfl
  | cons v order ih =>
    rw [forall_mem_cons] at known
    have same : goOn children fuel (false, m) v = visit (search children fuel) (false, m) v := by
      simp only [goOn, visit, off v]
    have nobody : ∀ w ∈ [v], ∀ u, m.onPath u = true → Relation.TransGen (Edge children) u w := by
      intro w _ u on
      rw [off u] at on
      cases on
    have outcome : Outcome children m (visit (search children fuel) (false, m) v) (· ∈ [v]) :=
      visit_all searches (forall_mem_singleton.mpr known.1) sound nobody enough
    rw [foldl_cons, foldl_cons, same]
    rcases outcome with ⟨found, -⟩ | ⟨nothing, further, -⟩
    · rw [foldl_found (visit_found _) _ found, foldl_found goOn_found _ found]
    · have more : visit (search children fuel) (false, m) v =
          (false, (visit (search children fuel) (false, m) v).2) := Prod.ext nothing rfl
      rw [more]
      exact ih known.2 further.sound (by rw [further.path]; exact off) ((left_extends further).trans enough)

/-- A cycle is found if and only if there is one. -/
theorem detect_iff {order : List V} (known : ∀ v, ∀ w ∈ children v, v ∈ order ∧ w ∈ order)
    (enough : order.length ≤ fuel) :
    (detect children fuel order).1 = true ↔ ∃ v, Relation.TransGen (Edge children) v v := by
  let fresh : Marks V := ⟨fun _ => false, fun _ => false⟩
  have sound : Sound children fresh := by
    constructor
    · intro v on
      cases on
    · intro v w done
      cases done.1
    · intro v done
      cases done.1
  have searched : Searches children order.toFinset fuel := by
    refine searches (fun v _ w edge => ?_) fuel
    rw [mem_toFinset]
    exact (known v w edge).2
  have inside : ∀ v ∈ order, v ∈ order.toFinset := fun v member => mem_toFinset.mpr member
  have all : left order.toFinset fresh ≤ fuel :=
    (Finset.card_filter_le _ _).trans (order.toFinset_card_le.trans enough)
  have nobody : ∀ w ∈ order, ∀ u, fresh.onPath u = true → Relation.TransGen (Edge children) u w := by
    intro w _ u on
    cases on
  rw [detect, foldl_goOn searched inside sound (fun _ => rfl) all]
  rcases visit_all searched inside sound nobody all with ⟨found, cycle⟩ | ⟨nothing, further, done⟩
  · exact ⟨fun _ => cycle, fun _ => found⟩
  · rw [nothing]
    refine ⟨fun found => absurd found Bool.false_ne_true, ?_⟩
    rintro ⟨v, cycle⟩
    -- the first edge of the cycle shows that the node is in the order
    obtain ⟨w, edge, -⟩ := Relation.TransGen.head'_iff.mp cycle
    exact absurd cycle (further.sound.acyclic (done v (known v w edge).1))

end

end DepthFirst
