import FlowRulZ.Lib.Component
import FlowRulZ.Lib.Table
import Mathlib.Data.PNat.Basic
import Mathlib.Data.Finset.Card

/-! # The timer wheel

A timer waits in the slot where the wheel will be when it is due, with the number of whole
revolutions until then.  A visit of the slot before the last revolution moves the timer to the
next slot, so that the next tick visits it again, and takes it out of the map of timers.
-/

open List

namespace FlowRulZ.Scheduling

open Function

structure TimerEntry where
  id : UInt64
  remaining : Nat
  slotIdx : Nat
  /-- The number of the timer, which stands for its callback. -/
  callback : Nat
  deriving DecidableEq, Repr

/-- What has happened to a timer; ticks are counted from the start of the wheel. -/
structure Timer where
  id : UInt64
  /-- How many ticks its delay is, and how many there had been before. -/
  ticks : Nat
  addedAt : Nat
  firings : List Nat := []
  cancelledAt : Option Nat := none
  deriving DecidableEq, Repr

structure TimerWheel where
  tick : ℕ+
  slotCount : ℕ+
  slots : Nat → List TimerEntry := fun _ => []
  currentSlot : Nat := 0
  nextID : UInt64 := 0
  /-- For each id its element: the list that holds it, and the number of the timer. -/
  entries : AList fun _ : UInt64 => Nat × Nat := ∅
  timers : List Timer := []
  ticked : Nat := 0

inductive Event where
  | add (d : Int)
  | cancel (id : UInt64)
  | tickOnce

def Timer.pending (t : Timer) : Bool := t.firings.isEmpty && t.cancelledAt.isNone

/-- A timer fires once, at the tick it is due or at the next one, unless it is cancelled before. -/
def Timer.OnTime (t : Timer) (ticked : Nat) : Prop :=
  t.firings.length ≤ 1 ∧
    (∀ k ∈ t.firings, t.addedAt + t.ticks ≤ k ∧ k ≤ t.addedAt + t.ticks + 1 ∧ ∀ c ∈ t.cancelledAt, k ≤ c) ∧
    (t.cancelledAt = none → t.addedAt + t.ticks + 1 ≤ ticked → t.firings ≠ [])

namespace TimerWheel

/-- The delay in ticks, at least one. -/
def ticksOf (w : TimerWheel) (d : Int) : Nat := max 1 (d / w.tick).toNat

def add (w : TimerWheel) (d : Int) : TimerWheel :=
  let id := w.nextID + 1
  let ticks := w.ticksOf d
  let slot := (w.currentSlot + ticks) % w.slotCount
  { w with
    nextID := id
    slots := Function.update w.slots slot (w.slots slot ++ [⟨id, ticks / w.slotCount, slot, w.timers.length⟩])
    entries := w.entries.insert id (slot, w.timers.length)
    timers := w.timers ++ [{ id, ticks, addedAt := w.ticked }] }

/-- The element is removed if it is in the list of the slot that its entry names. -/
def cancel (w : TimerWheel) (id : UInt64) : TimerWheel × Bool :=
  let timers := w.timers.map fun t => if t.id = id ∧ t.pending then { t with cancelledAt := some w.ticked } else t
  match w.entries.lookup id with
  | none => ({ w with timers }, false)
  | some (slot, number) =>
    let here := (w.slots slot).filter fun entry => ¬ (entry.callback = number ∧ entry.slotIdx = slot)
    ({ w with timers, slots := Function.update w.slots slot here, entries := w.entries.erase id }, true)

def len (w : TimerWheel) : Nat := w.entries.keys.length

/-- The body of the loop in `tickOnce`, for the front of the current slot. -/
def visit (w : TimerWheel) (entry : TimerEntry) : TimerWheel :=
  let slots := Function.update w.slots w.currentSlot (w.slots w.currentSlot).tail
  if 0 < entry.remaining then
    let target := (w.currentSlot + 1) % w.slotCount
    let moved := { entry with remaining := entry.remaining - 1, slotIdx := target }
    { w with
      slots := Function.update slots target (slots target ++ [moved])
      entries := (w.entries.insert entry.id (target, entry.callback)).erase entry.id }
  else
    { w with
      slots
      entries := w.entries.erase entry.id
      timers := w.timers.modify entry.callback fun t => { t with firings := t.firings ++ [w.ticked + 1] } }

/-- With one slot the entries that are moved are visited again, once for each revolution. -/
def visits (w : TimerWheel) : Nat := ((w.slots w.currentSlot).map (·.remaining + 1)).sum

def walk : Nat → TimerWheel → TimerWheel
  | 0, w => w
  | n + 1, w =>
    match w.slots w.currentSlot with
    | [] => w
    | entry :: _ => walk n (w.visit entry)

def tickOnce (w : TimerWheel) : TimerWheel :=
  let w := walk w.visits w
  { w with currentSlot := (w.currentSlot + 1) % w.slotCount, ticked := w.ticked + 1 }

def component : Component TimerWheel Event Bool where
  handle w
    | .add d => (w.add d, [])
    | .cancel id => ((w.cancel id).1, [(w.cancel id).2])
    | .tickOnce => (w.tickOnce, [])

def pending (w : TimerWheel) : Finset Nat :=
  (Finset.range w.timers.length).filter fun i => (w.timers[i]?.any (·.pending)) = true

/-- The map holds the pending timers, each with its element; it is as large as there are, and `Cancel`
removes each of them. -/
structure Exact (w : TimerWheel) : Prop where
  pending : ∀ (i : Nat) t, w.timers[i]? = some t → (t.pending ↔
    ∃ slot, w.entries.lookup t.id = some (slot, i) ∧ ∃ e ∈ w.slots slot, e.slotIdx = slot ∧ e.id = t.id ∧ e.callback = i)
  known : ∀ id element, w.entries.lookup id = some element →
    ∃ (i : Nat) (t : Timer), w.timers[i]? = some t ∧ t.id = id ∧ t.pending
  len : w.len = w.pending.card
  cancel : ∀ (i : Nat) t, w.timers[i]? = some t → t.pending →
    (w.cancel t.id).2 = true ∧ ∀ slot, ∀ e ∈ (w.cancel t.id).1.slots slot, e.callback ≠ i

/-- A delay is shorter than a revolution, and no pending timer has the next id. -/
def Fine (w : TimerWheel) : Event → Prop
  | .add d => w.ticksOf d < w.slotCount ∧ w.entries.lookup (w.nextID + 1) = none
  | _ => True

instance (w : TimerWheel) : (event : Event) → Decidable (w.Fine event)
  | .add _ => inferInstanceAs (Decidable (_ ∧ _))
  | .cancel _ | .tickOnce => isTrue trivial

/-- A pending timer has one element, in the slot where the wheel will be when it is due. -/
structure Valid (w : TimerWheel) : Prop where
  current : w.currentSlot < w.slotCount
  held : ∀ slot, ∀ e ∈ w.slots slot, e.slotIdx = slot ∧ e.remaining = 0 ∧ w.entries.lookup e.id = some (slot, e.callback) ∧
    slot < w.slotCount ∧ ∃ t, w.timers[e.callback]? = some t ∧ t.id = e.id ∧ t.pending ∧
      t.addedAt + t.ticks + w.currentSlot = w.ticked + slot + if slot < w.currentSlot then (w.slotCount : Nat) else 0
  distinct : ∀ slot, (w.slots slot).Pairwise (·.callback ≠ ·.callback)
  found : ∀ id element, w.entries.lookup id = some element → ∃ e ∈ w.slots element.1, e.id = id ∧ e.callback = element.2
  pending : ∀ (i : Nat) t, w.timers[i]? = some t → t.pending → ∃ slot, ∃ e ∈ w.slots slot, e.callback = i
  onTime : ∀ (i : Nat) t, w.timers[i]? = some t → t.OnTime w.ticked

variable {w : TimerWheel}

theorem visits_visit {entry : TimerEntry} {rest : List TimerEntry} (front : w.slots w.currentSlot = entry :: rest) :
    (w.visit entry).visits < w.visits := by
  by_cases more : 0 < entry.remaining
  · by_cases same : w.currentSlot = (w.currentSlot + 1) % w.slotCount
    · simp [visit, visits, more, ← same, front]
      omega
    · simp [visit, visits, more, same, front]
  · simp [visit, visits, more, front]

theorem walk_empty {n : Nat} (enough : w.visits ≤ n) : (walk n w).slots w.currentSlot = [] := by
  induction n generalizing w with
  | zero => cases front : w.slots w.currentSlot <;> simp_all [walk, visits]
  | succ n ih =>
    unfold walk
    cases front : w.slots w.currentSlot with
    | nil => exact front
    | cons entry rest =>
      have fewer := visits_visit front
      have same : (w.visit entry).currentSlot = w.currentSlot := by grind [visit]
      exact same ▸ ih (by omega)

theorem Valid.visit {entry : TimerEntry} {rest : List TimerEntry} (valid : w.Valid)
    (front : w.slots w.currentSlot = entry :: rest) : (w.visit entry).Valid := by
  obtain ⟨current, held, distinct, found, waits, onTime⟩ := valid
  obtain ⟨own, none, listed, -, t, there, id, pending, due⟩ := held w.currentSlot entry (by simp [front])
  have apart := distinct w.currentSlot
  simp only [front, pairwise_cons] at apart
  simp only [TimerWheel.visit, none]
  constructor
  · exact current
  · intro slot e inside
    grind [update_apply]
  · grind [update_apply]
  · intro id slot
    grind [update_apply]
  · intro i t' there' pending'
    obtain ⟨slot, e, inside, rfl⟩ := waits i t' (by grind [Timer.pending]) pending'
    exact ⟨slot, e, by grind [update_apply, Timer.pending], rfl⟩
  · intro i t' there'
    by_cases fired : entry.callback = i
    · subst fired
      obtain rfl : { t with firings := t.firings ++ [w.ticked + 1] } = t' := by simpa [there] using there'
      simp_all [Timer.OnTime, Timer.pending]
    · exact onTime i t' (by grind)

theorem mod_of_lt_double {a n : Nat} (less : a < 2 * n) : a % n = if a < n then a else a - n := by
  split
  next small => exact Nat.mod_eq_of_lt small
  next large => rw [Nat.mod_eq_sub_mod (by omega), Nat.mod_eq_of_lt (by omega)]

theorem Valid.add (valid : w.Valid) {d : Int} (fine : w.Fine (.add d)) : (w.add d).Valid := by
  obtain ⟨current, held, distinct, found, waits, onTime⟩ := valid
  obtain ⟨short, fresh⟩ := fine
  have none : w.ticksOf d / w.slotCount = 0 := Nat.div_eq_of_lt short
  have place := mod_of_lt_double (a := w.currentSlot + w.ticksOf d) (n := w.slotCount) (by omega)
  simp only [TimerWheel.add, none]
  generalize (w.currentSlot + w.ticksOf d) % w.slotCount = slot at place
  have new (k : Nat) (e : TimerEntry) :
      e ∈ Function.update w.slots slot (w.slots slot ++ [⟨w.nextID + 1, 0, slot, w.timers.length⟩]) k ↔
        e ∈ w.slots k ∨ k = slot ∧ e = ⟨w.nextID + 1, 0, slot, w.timers.length⟩ := by
    grind [update_apply]
  constructor
  · exact current
  · intro k e inside
    rcases (new k e).mp inside with old | ⟨rfl, rfl⟩
    · grind
    · refine ⟨rfl, rfl, by simp, by grind, _, getElem?_concat_length, rfl, rfl, ?_⟩
      grind
  · intro k
    have older : ∀ e ∈ w.slots slot, e.callback < w.timers.length := by grind
    simp only [update_apply]
    split
    next => exact pairwise_append.mpr ⟨distinct slot, by simp, by grind⟩
    next => exact distinct k
  · intro id element listed
    simp only [new]
    by_cases own : id = w.nextID + 1
    · subst own
      simp only [AList.lookup_insert, Option.some.injEq] at listed
      subst listed
      exact ⟨_, .inr ⟨rfl, rfl⟩, rfl, rfl⟩
    · obtain ⟨e, inside, same⟩ := found id element (by grind)
      exact ⟨e, .inl inside, same⟩
  · intro i t' there' pending'
    simp only [new]
    grind
  · intro i t' there'
    grind [Timer.OnTime]

theorem Valid.cancel (valid : w.Valid) (id : UInt64) : (w.cancel id).1.Valid := by
  obtain ⟨current, held, distinct, found, waits, onTime⟩ := valid
  have marked (i : Nat) (t' : Timer) (there : (w.timers.map fun t =>
      if t.id = id ∧ t.pending then { t with cancelledAt := some w.ticked } else t)[i]? = some t') :
      t'.OnTime w.ticked ∧ (t'.pending → w.timers[i]? = some t' ∧ t'.id ≠ id) := by
    obtain ⟨t, old, rfl⟩ := Option.map_eq_some_iff.mp (getElem?_map .. ▸ there)
    have := onTime i t old
    split
    next pending => simp_all [Timer.OnTime, Timer.pending]
    next => grind
  unfold TimerWheel.cancel
  cases known : w.entries.lookup id with
  | none =>
    constructor
    · exact current
    · intro k e inside
      grind
    · exact distinct
    · exact found
    · grind
    · exact fun i t there => (marked i t there).1
  | some element =>
    obtain ⟨own, inside, rfl, number⟩ := found id element known
    have rest (k : Nat) (e : TimerEntry) : e ∈ Function.update w.slots element.1
        ((w.slots element.1).filter fun e => ¬ (e.callback = element.2 ∧ e.slotIdx = element.1)) k ↔
          e ∈ w.slots k ∧ e.id ≠ own.id := by
      grind [update_apply]
    constructor
    · exact current
    · intro k e inside
      grind
    · intro k
      grind [update_apply]
    · intro id k listed
      grind
    · intro i t' there' pending'
      grind
    · exact fun i t there => (marked i t there).1

theorem Valid.tickOnce (valid : w.Valid) : w.tickOnce.Valid := by
  have walked (n : Nat) (w : TimerWheel) (valid : w.Valid) : (walk n w).Valid ∧ (walk n w).currentSlot = w.currentSlot := by
    induction n generalizing w with
    | zero => exact ⟨valid, rfl⟩
    | succ n ih =>
      unfold walk
      split
      next => exact ⟨valid, rfl⟩
      next entry rest front => 
        obtain ⟨valid', same⟩ := ih _ (valid.visit front)
        exact ⟨valid', same.trans (by grind [TimerWheel.visit])⟩
  obtain ⟨⟨current, held, distinct, found, waits, onTime⟩, same⟩ := walked w.visits w valid
  have empty := walk_empty (w := w) le_rfl
  unfold TimerWheel.tickOnce
  generalize walk w.visits w = v at *
  have next := mod_of_lt_double (a := v.currentSlot + 1) (n := v.slotCount) (by omega)
  constructor
  · exact Nat.mod_lt _ v.slotCount.pos
  · intro k e inside
    grind
  · exact distinct
  · exact found
  · exact waits
  · intro i t there
    grind [Timer.OnTime, Timer.pending]

theorem Valid.handle (valid : w.Valid) {event : Event} (fine : w.Fine event) : (component.handle w event).1.Valid :=
  match event with
  | .add _ => valid.add fine
  | .cancel id => valid.cancel id
  | .tickOnce => valid.tickOnce

theorem Valid.exact (valid : w.Valid) : w.Exact := by
  obtain ⟨current, held, distinct, found, waits, onTime⟩ := valid
  have known (id : UInt64) (element : Nat × Nat) (listed : w.entries.lookup id = some element) :
      ∃ t : Timer, w.timers[element.2]? = some t ∧ t.id = id ∧ t.pending := by
    obtain ⟨e, inside, rfl, same⟩ := found id element listed
    grind
  have listed (i : Nat) (t : Timer) (there : w.timers[i]? = some t) (pending : t.pending) :
      ∃ slot, w.entries.lookup t.id = some (slot, i) := by
    obtain ⟨slot, e, inside, rfl⟩ := waits i t there pending
    exact ⟨slot, by grind⟩
  constructor
  · grind
  · exact fun id element now => ⟨element.2, known id element now⟩
  · have keys (id : UInt64) : id ∈ w.entries.keys.toFinset ↔ ∃ element, w.entries.lookup id = some element := by
      rw [mem_toFinset, ← AList.mem_keys, ← AList.lookup_isSome, Option.isSome_iff_exists]
    have numbers (i : Nat) : i ∈ w.pending ↔ ∃ t, w.timers[i]? = some t ∧ t.pending := by
      grind [TimerWheel.pending]
    rw [len, ← toFinset_card_of_nodup w.entries.keys_nodup]
    apply Finset.card_bij' (fun id _ => ((w.entries.lookup id).getD (0, 0)).2)
      (fun i _ => (w.timers[i]?.map (·.id)).getD 0)
    all_goals grind
  · intro i t there pending
    obtain ⟨slot, now⟩ := listed i t there pending
    simp only [TimerWheel.cancel, now]
    grind [update_apply]

variable {tick slotCount : ℕ+} {events : List Event}

theorem always_valid (fine : component.Throughout Fine { tick, slotCount } events) :
    component.Always Valid { tick, slotCount } events :=
  component.always_of_throughout (fun _ _ valid fine => valid.handle fine) (by constructor <;> simp) fine

/-- A timer whose delay is shorter than a revolution fires once, at the tick it is due or the next. -/
theorem timers_on_time (fine : component.Throughout Fine { tick, slotCount } events) :
    component.Always (fun w => ∀ t ∈ w.timers, t.OnTime w.ticked) { tick, slotCount } events := by
  refine (always_valid fine).imp fun w valid t member => ?_
  obtain ⟨i, there⟩ := mem_iff_getElem?.mp member
  exact valid.onTime i t there

theorem timers_on_time_cancel :
    component.Always (fun w => ∀ t ∈ w.timers, t.OnTime w.ticked) { tick := 10, slotCount := 4 }
      [.add 35, .add 20, .tickOnce, .cancel 2, .tickOnce, .tickOnce, .tickOnce] :=
  timers_on_time (by decide +kernel)

/-- A timer of six ticks fires at the third tick of a wheel with three slots. -/
theorem timer_fires_early :
    ¬ component.Always (fun w => ∀ t ∈ w.timers, t.OnTime w.ticked) { tick := 10, slotCount := 3 }
      [.add 60, .tickOnce, .tickOnce, .tickOnce] := by
  intro always
  have fired := always.last { id := 1, ticks := 6, addedAt := 0, firings := [3] } (by decide +kernel)
  exact absurd (fired.2.1 3 (by simp)).1 (by decide)

/-- The map is exact while all delays are shorter than a revolution. -/
theorem timers_exact (fine : component.Throughout Fine { tick, slotCount } events) :
    component.Always Exact { tick, slotCount } events :=
  (always_valid fine).imp fun _ => Valid.exact

theorem timers_exact_cancel :
    component.Always Exact { tick := 10, slotCount := 4 } [.add 35, .tickOnce, .cancel 1, .add 0, .tickOnce] :=
  timers_exact (by decide +kernel)

/-- A timer that is moved to the next slot is not in the map any more. -/
theorem moved_timer_lost : ¬ component.Always Exact { tick := 10, slotCount := 3 } [.add 60, .tickOnce] := by
  intro always
  have counted := always.last.len
  revert counted
  decide +kernel

end TimerWheel

end FlowRulZ.Scheduling
