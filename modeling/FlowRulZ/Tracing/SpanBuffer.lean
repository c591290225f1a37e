import FlowRulZ.Lib.Component
import Mathlib.Algebra.Group.Nat.Defs

/-! # The span buffer

Spans wait in a ring until they are drained.  Its two counters run on, each with 64 bits.
-/

namespace FlowRulZ.Tracing

open List Function

structure Span where
  opcode : UInt8
  serviceId : UInt16
  layer : UInt8
  durationNs : UInt64
  status : UInt8
  deriving Repr, DecidableEq

def Span.zero : Span := ⟨0, 0, 0, 0, 0⟩

/-- `size_of::<Span>()`. -/
def spanSize : Nat := 24

/-- `SPAN_BUFFER_CAPACITY`. -/
def capacity : Nat := 1024

/-- The array is given by its indices below the capacity. -/
structure SpanRingBuffer where
  buffer : Nat → Span := fun _ => .zero
  head : Nat := 0
  tail : Nat := 0

namespace SpanRingBuffer

/-- `head - tail`, which wraps. -/
def count (ring : SpanRingBuffer) : Nat := (ring.head + 2 ^ 64 - ring.tail) % 2 ^ 64

def push (ring : SpanRingBuffer) (span : Span) : SpanRingBuffer :=
  if capacity ≤ ring.count then ring
  else { ring with
    buffer := update ring.buffer (ring.head % capacity) span
    head := (ring.head + 1) % 2 ^ 64 }

/-- The loop of `drain`, with the spans that it may still write. -/
def drainLoop (out : Nat) : Nat → Nat → SpanRingBuffer → SpanRingBuffer × List Span
  | 0, _, ring => (ring, [])
  | left + 1, written, ring =>
    if ring.head ≤ ring.tail ∨ out < written * spanSize + spanSize then (ring, [])
    else
      let later := drainLoop out left (written + 1) { ring with tail := (ring.tail + 1) % 2 ^ 64 }
      (later.1, ring.buffer (ring.tail % capacity) :: later.2)

/-- `drain` into `out` bytes. -/
def drain (ring : SpanRingBuffer) (out : Nat) : SpanRingBuffer × List Span := drainLoop out (out / spanSize) 0 ring

inductive Op where
  | push (span : Span)
  | drain (out : Nat)

/-- What is drained is shown. -/
def ops : Component SpanRingBuffer Op Span where
  handle ring
    | .push span => (ring.push span, [])
    | .drain out => ring.drain out

variable {ring : SpanRingBuffer}

theorem handle_push (span : Span) : ops.handle ring (.push span) = (ring.push span, []) := rfl

theorem handle_drain (out : Nat) : ops.handle ring (.drain out) = ring.drain out := rfl

def stored (ring : SpanRingBuffer) : List Span :=
  (range ring.count).map fun i => ring.buffer ((ring.tail + i) % capacity)

/-- The spans of a run that are not pushed while the ring is full. -/
def kept (ring : SpanRingBuffer) : List Op → List Span
  | [] => []
  | .push span :: rest => (if ring.stored.length < capacity then [span] else []) ++ kept (ring.push span) rest
  | .drain out :: rest => kept (ring.drain out).1 rest

def pushes : List Op → Nat
  | [] => 0
  | .push _ :: rest => pushes rest + 1
  | .drain _ :: rest => pushes rest

/-- The counters are in order, and the head can take some more steps. -/
structure Sound (room : Nat) (ring : SpanRingBuffer) : Prop where
  order : ring.tail ≤ ring.head
  fits : ring.head - ring.tail ≤ capacity
  room : ring.head + room < 2 ^ 64

variable {room : Nat}

theorem Sound.count_eq (sound : ring.Sound room) : ring.count = ring.head - ring.tail := by
  obtain ⟨order, fits, room⟩ := sound
  rw [count]
  omega

theorem Sound.push (sound : ring.Sound (room + 1)) (span : Span) : (ring.push span).Sound room ∧
    (ring.push span).stored = ring.stored ++ if ring.stored.length < capacity then [span] else [] := by
  have count := sound.count_eq
  obtain ⟨order, fits, left⟩ := sound
  have length : ring.stored.length = ring.count := by simp [stored]
  by_cases full : capacity ≤ ring.count
  · rw [SpanRingBuffer.push, if_pos full, if_neg (by omega), append_nil]
    exact ⟨⟨order, fits, by omega⟩, rfl⟩
  · have next : (ring.head + 1) % 2 ^ 64 = ring.head + 1 := Nat.mod_eq_of_lt (by omega)
    rw [SpanRingBuffer.push, if_neg full, if_pos (by omega), next]
    have sound' : Sound room { ring with
        buffer := update ring.buffer (ring.head % capacity) span, head := ring.head + 1 } :=
      ⟨Nat.le_succ_of_le order, by dsimp only; omega, by dsimp only; omega⟩
    refine ⟨sound', ?_⟩
    rw [stored, sound'.count_eq, stored, count]
    dsimp only
    rw [Nat.sub_add_comm order, range_succ, map_append, map_singleton, Nat.add_sub_cancel' order, update_self]
    refine congrArg (· ++ [span]) (map_congr_left fun i inside => update_of_ne ?_ _ _)
    -- the place is free: less than a round lies between the head and what is stored
    rw [capacity] at *
    have before := mem_range.mp inside
    omega

theorem Sound.drainLoop (out left : Nat) : ∀ {ring : SpanRingBuffer} (written : Nat), ring.Sound room →
    (drainLoop out left written ring).1.Sound room ∧
      (drainLoop out left written ring).2 ++ (drainLoop out left written ring).1.stored = ring.stored := by
  induction left with
  | zero => exact fun written sound => ⟨sound, nil_append _⟩
  | succ left ih =>
    intro ring written sound
    rw [SpanRingBuffer.drainLoop]
    split_ifs with stop
    · exact ⟨sound, nil_append _⟩
    · have count := sound.count_eq
      obtain ⟨order, fits, few⟩ := sound
      have next : (ring.tail + 1) % 2 ^ 64 = ring.tail + 1 := Nat.mod_eq_of_lt (by omega)
      have sound' : Sound room { ring with tail := ring.tail + 1 } := ⟨by dsimp only; omega, by dsimp only; omega, few⟩
      obtain ⟨kept, same⟩ := ih (written + 1) sound'
      have behind : ring.head - ring.tail = ring.head - (ring.tail + 1) + 1 := by omega
      rw [next]
      refine ⟨kept, ?_⟩
      rw [cons_append, same, stored, sound'.count_eq, stored, count, behind, range_succ_eq_map, map_cons, map_map]
      refine congrArg _ (map_congr_left fun i _ => ?_)
      have next : ring.tail + 1 + i = ring.tail + (i + 1) := by omega
      exact congrArg (fun n => ring.buffer (n % capacity)) next

theorem Sound.run (events : List Op) : ∀ {ring : SpanRingBuffer}, ring.Sound (pushes events) →
    (ops.run ring events).2 ++ (ops.after ring events).stored = ring.stored ++ kept ring events ∧
      ops.Always (fun ring => ring.tail ≤ ring.head ∧ ring.head - ring.tail ≤ capacity) ring events := by
  induction events with
  | nil =>
    intro ring sound
    rw [Component.after, Component.run_nil, kept, nil_append, append_nil]
    exact ⟨rfl, sound.order, sound.fits⟩
  | cons op events ih =>
    intro ring sound
    cases op with
    | push span =>
      obtain ⟨sound', added⟩ := sound.push span
      obtain ⟨same, always⟩ := ih sound'
      simp only [Component.Always, Component.after, Component.run_cons, handle_push, kept, nil_append]
      refine ⟨?_, ⟨sound.order, sound.fits⟩, always⟩
      rw [same, added, append_assoc]
    | drain out =>
      obtain ⟨sound', drained⟩ := sound.drainLoop out (out / spanSize) 0
      obtain ⟨same, always⟩ := ih sound'
      simp only [Component.Always, Component.after, Component.run_cons, handle_drain, kept]
      refine ⟨?_, ⟨sound.order, sound.fits⟩, always⟩
      rw [append_assoc, drain, same, ← append_assoc, drained]

/-- What is drained and what is left to drain are the spans that were kept, in order. -/
theorem run_fifo (events : List Op) (few : pushes events < 2 ^ 64) :
    (ops.run {} events).2 ++ (ops.after {} events).stored = kept {} events ∧
      ops.Always (fun ring => ring.tail ≤ ring.head ∧ ring.head - ring.tail ≤ capacity) {} events :=
  Sound.run events ⟨Nat.zero_le _, Nat.zero_le _, (Nat.zero_add _).symm ▸ few⟩

theorem run_fifo_partial : let events := [Op.push ⟨1, 2, 0, 3, 0⟩, .push .zero, .drain 47]
    (ops.run {} events).2 ++ (ops.after {} events).stored = [⟨1, 2, 0, 3, 0⟩, .zero] :=
  (run_fifo [.push ⟨1, 2, 0, 3, 0⟩, .push .zero, .drain 47] (by decide)).1.trans (by decide +kernel)

/-- A span is pushed and drained again, some times. -/
def rounds (n : Nat) : List Op := (replicate n [.push .zero, .drain spanSize]).flatten

theorem push_even (even : ring.head = ring.tail) : (ring.push .zero).head = (ring.head + 1) % 2 ^ 64 ∧
    (ring.push .zero).tail = ring.tail := by
  rw [push, if_neg]
  · exact ⟨rfl, rfl⟩
  · rw [count, even, Nat.add_sub_cancel_left]
    decide

theorem drain_one : ring.drain spanSize = if ring.head ≤ ring.tail then (ring, [])
    else ({ ring with tail := (ring.tail + 1) % 2 ^ 64 }, [ring.buffer (ring.tail % capacity)]) := by
  have one : spanSize / spanSize = 1 := rfl
  have enough : ¬ spanSize < 0 * spanSize + spanSize := by decide
  rw [drain, one, drainLoop]
  simp only [drainLoop, or_iff_left enough]

theorem after_push (span : Span) : ops.after ring [.push span] = ring.push span := rfl

theorem after_pair (span : Span) (out : Nat) :
    ops.after ring [.push span, .drain out] = ((ring.push span).drain out).1 := rfl

theorem drain_next {n : Nat} (small : n + 1 < 2 ^ 64) (head : ring.head = n + 1) (tail : ring.tail = n) :
    (ring.drain spanSize).1.head = n + 1 ∧ (ring.drain spanSize).1.tail = n + 1 := by
  rw [drain_one, if_neg (by omega)]
  rw [tail, Nat.mod_eq_of_lt small]
  exact ⟨head, rfl⟩

theorem after_rounds (n : Nat) (small : n < 2 ^ 64) :
    (ops.after {} (rounds n)).head = n ∧ (ops.after {} (rounds n)).tail = n := by
  induction n with
  | zero => exact ⟨rfl, rfl⟩
  | succ n ih =>
    obtain ⟨head, tail⟩ := ih (Nat.lt_of_succ_lt small)
    have more : rounds (n + 1) = rounds n ++ [.push .zero, .drain spanSize] := by
      simp [rounds, replicate_succ']
    obtain ⟨head', tail'⟩ := push_even (head.trans tail.symm)
    have next : ((ops.after {} (rounds n)).head + 1) % 2 ^ 64 = n + 1 := by rw [head, Nat.mod_eq_of_lt small]
    rw [more, Component.after_append, after_pair]
    exact drain_next small (head'.trans next) (tail'.trans tail)

/-- After 2 ^ 64 pushes the head is behind the tail, and nothing is drained any more. -/
theorem head_overtaken : ∃ n, n + 1 = 2 ^ 64 ∧
    let ring := ops.after {} (rounds n ++ [.push .zero])
    ring.head < ring.tail ∧ (ring.drain spanSize).2 = [] := by
  obtain ⟨n, last⟩ : ∃ n, n + 1 = 2 ^ 64 := ⟨2 ^ 64 - 1, by decide⟩
  obtain ⟨head, tail⟩ := after_rounds n (by omega)
  obtain ⟨head', tail'⟩ := push_even (head.trans tail.symm)
  have behind : ((ops.after {} (rounds n)).push .zero).head < ((ops.after {} (rounds n)).push .zero).tail := by
    omega
  refine ⟨n, last, ?_⟩
  rw [Component.after_append]
  refine ⟨behind, ?_⟩
  rw [after_push, drain_one, if_pos (Nat.le_of_lt behind)]

end SpanRingBuffer

end FlowRulZ.Tracing
