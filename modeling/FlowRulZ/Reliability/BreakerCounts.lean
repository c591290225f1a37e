import FlowRulZ.Reliability.CircuitBreaker
import Mathlib.Algebra.Group.Nat.Defs

/-! # What a breaker counts

A breaker counts failures while it is closed, and requests while it is half open.  Both counters
have 64 bits.  The first is reset long before it could overflow; the second also counts the calls
that it refuses, and nothing resets it until a call is reported.
-/

namespace FlowRulZ.Reliability

open List

def CircuitBreaker.reset (cb : CircuitBreaker) : CircuitBreaker :=
  { cb with state := .stateClosed, failureCount := 0 }

/-- A call of the breaker, with its time if it reads the clock. -/
inductive Operation where
  | allow (now : Int)
  | success
  | failure (now : Int)
  | reset
  deriving Repr, DecidableEq

/-- A breaker as a component; the outputs are the answers of `Allow`. -/
def breaker : Component CircuitBreaker Operation Bool where
  handle cb
    | .allow now => ((cb.allow now).1, [(cb.allow now).2])
    | .success => (cb.success, [])
    | .failure now => (cb.failure now, [])
    | .reset => (cb.reset, [])

theorem breaker_allow (cb : CircuitBreaker) (now : Int) :
    breaker.handle cb (.allow now) = ((cb.allow now).1, [(cb.allow now).2]) := rfl

theorem breaker_failure (cb : CircuitBreaker) (now : Int) : breaker.handle cb (.failure now) = (cb.failure now, []) := rfl

/-- The failures since the last success or reset. -/
def failures (calls : List Operation) : Nat :=
  calls.foldl (fun n call => match call with
    | .allow _ => n
    | .failure _ => n + 1
    | .success | .reset => 0) 0

/-- The breaker has become half open in a call of `Allow`, and only calls of `Allow` follow it. -/
structure Probe (cb : CircuitBreaker) (calls before : List Operation) (now : Int) (times : List Int) : Prop where
  part : before ++ .allow now :: times.map .allow <+: calls
  shut : (breaker.after cb before).state = .stateOpen
  entered : (breaker.after cb (before ++ [.allow now])).state = .stateHalfOpen

/-- The breaker counts as it should throughout some calls. -/
structure Exact (cb : CircuitBreaker) (calls : List Operation) : Prop where
  closed : ∀ before, before <+: calls → (breaker.after cb before).state = .stateClosed →
    failures before < cb.threshold.toInt
  opens : ∀ before call, before ++ [call] <+: calls →
    ((breaker.after cb before).state ≠ .stateOpen ∧ (breaker.after cb (before ++ [call])).state = .stateOpen ↔
      ∃ now, call = .failure now ∧ ((breaker.after cb before).state = .stateHalfOpen ∨
          (breaker.after cb before).state = .stateClosed ∧ failures (before ++ [call]) = cb.threshold.toInt))
  probes : ∀ before now times, Probe cb calls before now times →
    (breaker.run (breaker.after cb before) (.allow now :: times.map .allow)).2.count true ≤ 3

theorem failures_concat (calls : List Operation) (call : Operation) :
    failures (calls ++ [call]) = match call with
      | .allow _ => failures calls
      | .failure _ => failures calls + 1
      | .success | .reset => 0 := by
  rw [failures, foldl_concat]
  rfl

/-- What a breaker knows of the calls so far; its counter is exact while it is closed. -/
structure Counted (threshold : Int64) (calls : List Operation) (cb : CircuitBreaker) : Prop where
  threshold_eq : cb.threshold = threshold
  maxReqs : cb.halfOpenMaxReqs = 3
  count : cb.state = .stateClosed → cb.failureCount.toInt = failures calls
  below : cb.state = .stateClosed → failures calls < threshold.toInt

section

variable {threshold : Int64} {calls : List Operation} {cb : CircuitBreaker}

section

variable (counted : Counted threshold calls cb)
include counted

theorem Counted.allow (now : Int) : Counted threshold (calls ++ [.allow now]) (cb.allow now).1 := by
  have same := failures_concat calls (.allow now)
  rcases cb.allow_cases now with ⟨-, asked⟩ | ⟨-, -, asked⟩ | ⟨-, -, asked⟩ | ⟨half, asked⟩ <;>
    simp only [asked]
  · exact ⟨counted.threshold_eq, counted.maxReqs, same ▸ counted.count, same ▸ counted.below⟩
  · exact ⟨counted.threshold_eq, counted.maxReqs, same ▸ counted.count, same ▸ counted.below⟩
  · exact ⟨counted.threshold_eq, counted.maxReqs, nofun, nofun⟩
  · have other : cb.counted.state ≠ .stateClosed := by simp [CircuitBreaker.counted, half]
    exact ⟨counted.threshold_eq, counted.maxReqs, fun closed => absurd closed other,
      fun closed => absurd closed other⟩

theorem Counted.next (closed : cb.state = .stateClosed) (now : Int) :
    (cb.failureCount + 1).toInt = failures (calls ++ [.failure now]) := by
  have below := counted.below closed
  have most := Int64.toInt_lt threshold
  have count := counted.count closed
  rw [failures_concat, toInt_add_one (by omega), count]
  rfl

theorem Counted.failure_state (now : Int) : (cb.failure now).state =
      if cb.state = .stateClosed ∧ failures (calls ++ [.failure now]) < threshold.toInt then .stateClosed
      else .stateOpen := by
  cases state : cb.state with
  | stateOpen => simp [CircuitBreaker.failure, state]
  | stateHalfOpen => simp [CircuitBreaker.failure, state]
  | stateClosed =>
    have reached : cb.threshold ≤ cb.failureCount + 1 ↔ ¬ failures (calls ++ [.failure now]) < threshold.toInt := by
      rw [Int64.le_iff_toInt_le, counted.next state now, counted.threshold_eq, Int.not_lt]
    by_cases under : failures (calls ++ [.failure now]) < threshold.toInt
    · simp [CircuitBreaker.failure, state, reached, under]
    · simp [CircuitBreaker.failure, state, reached, under]

theorem Counted.failure (now : Int) : Counted threshold (calls ++ [.failure now]) (cb.failure now) := by
  have stays := counted.failure_state now
  refine ⟨counted.threshold_eq, counted.maxReqs, fun closed => ?_, fun closed => ?_⟩ <;> rw [closed] at stays <;>
    split_ifs at stays with before
  · exact counted.next before.1 now
  · exact before.2

theorem Counted.reset {calls' : List Operation}
    (positive : 0 < threshold.toInt) (none_ : failures calls' = 0) : Counted threshold calls' cb.reset := by
  refine ⟨counted.threshold_eq, counted.maxReqs, fun _ => ?_, fun _ => ?_⟩
  · rw [none_]
    rfl
  · rw [none_]
    exact positive

end

end

theorem counted_after (threshold recoveryTimeout : Int64) (positive : 0 < threshold.toInt) (calls : List Operation) :
    Counted threshold calls (breaker.after (newCircuitBreaker threshold recoveryTimeout) calls) := by
  induction calls using List.reverseRecOn with
  | nil => exact ⟨rfl, rfl, fun _ => rfl, fun _ => positive⟩
  | append_singleton calls call ih =>
    rw [Component.after_concat]
    cases call with
    | allow now => exact ih.allow now
    | failure now => exact ih.failure now
    | success => exact ih.reset positive (failures_concat calls .success)
    | reset => exact ih.reset positive (failures_concat calls .reset)

structure HalfOpen (reqs : Int) (cb : CircuitBreaker) : Prop where
  state : cb.state = .stateHalfOpen
  maxReqs : cb.halfOpenMaxReqs = 3
  reqs_eq : cb.halfOpenReqs.toInt = reqs

/-- The answers of `Allow`, as it is called at some times, that are true. -/
def granted (cb : CircuitBreaker) (times : List Int) : Nat := (breaker.run cb (times.map .allow)).2.count true

theorem granted_append (cb : CircuitBreaker) (times more : List Int) :
    granted cb (times ++ more) = granted cb times + granted (breaker.after cb (times.map .allow)) more := by
  rw [granted, map_append, Component.run_append, count_append]
  rfl

section

variable {cb : CircuitBreaker} {reqs : Int} {now : Int} {times : List Int}

theorem HalfOpen.granted_cons (half : HalfOpen reqs cb) (now : Int) (times : List Int) :
    granted cb (now :: times) = (if reqs < 3 then 1 else 0) + granted cb.counted times := by
  have asked : cb.allow now = (cb.counted, decide (cb.halfOpenReqs < 3)) := by
    simp [CircuitBreaker.allow, half.state, CircuitBreaker.counted, half.maxReqs]
  have small : cb.halfOpenReqs < 3 ↔ reqs < 3 := by
    rw [Int64.lt_iff_toInt_lt, half.reqs_eq]
    rfl
  rw [granted, map_cons, Component.run_cons, count_append, breaker_allow]
  simp only [asked, small]
  by_cases few : reqs < 3
  · simp only [few]
    rfl
  · simp only [few]
    rfl

theorem HalfOpen.counted (half : HalfOpen reqs cb) (room : reqs < 2 ^ 63 - 1) : HalfOpen (reqs + 1) cb.counted where
  state := half.state
  maxReqs := half.maxReqs
  reqs_eq := by
    rw [← half.reqs_eq]
    apply toInt_add_one
    rw [half.reqs_eq]
    exact room

theorem HalfOpen.wrapped (half : HalfOpen (2 ^ 63 - 1) cb) : HalfOpen (-2 ^ 63) cb.counted where
  state := half.state
  maxReqs := half.maxReqs
  reqs_eq := by
    rw [CircuitBreaker.counted, Int64.toInt_add, half.reqs_eq]
    rfl

/-- As long as the counter does not wrap, it admits what is left of three calls. -/
theorem HalfOpen.granted_eq (times : List Int) : ∀ {cb : CircuitBreaker} {reqs : Int}, HalfOpen reqs cb →
    reqs + times.length ≤ 2 ^ 63 → granted cb times = min times.length (3 - reqs).toNat := by
  induction times with
  | nil =>
    intro cb reqs half room
    rfl
  | cons now times ih =>
    intro cb reqs half room
    rw [half.granted_cons, length_cons]
    rw [length_cons] at room
    cases times with
    | nil =>
      have none_ : granted cb.counted [] = 0 := rfl
      split_ifs <;> simp <;> omega
    | cons next times =>
      rw [length_cons] at room
      rw [ih (half.counted (by omega)) (by rw [length_cons]; omega)]
      split_ifs <;> omega

theorem HalfOpen.after (times : List Int) : ∀ {cb : CircuitBreaker} {reqs : Int}, HalfOpen reqs cb →
    reqs + times.length ≤ 2 ^ 63 - 1 → HalfOpen (reqs + times.length) (breaker.after cb (times.map .allow)) := by
  induction times with
  | nil =>
    intro cb reqs half room
    rw [length_nil, Int.natCast_zero, Int.add_zero]
    exact half
  | cons now times ih =>
    intro cb reqs half room
    rw [length_cons] at room ⊢
    have asked : (cb.allow now).1 = cb.counted := by
      simp [CircuitBreaker.allow, half.state, CircuitBreaker.counted]
    have onward := ih (half.counted (by omega)) (by omega)
    have step : breaker.after cb ((now :: times).map .allow) = breaker.after cb.counted (times.map .allow) := by
      rw [← asked]
      rfl
    rw [step, show reqs + (times.length + 1 : Nat) = reqs + 1 + times.length by omega]
    exact onward

theorem HalfOpen.granted_wrapped (half : HalfOpen (2 ^ 63 - 1) cb) (last again : Int) (rest : List Int) :
    0 < granted cb (last :: again :: rest) := by
  rw [half.granted_cons, half.wrapped.granted_cons, if_neg (by decide), if_pos (by decide)]
  omega

theorem exists_split {α : Type*} {l : List α} {n : Nat} (long : n + 2 ≤ l.length) :
    ∃ first a b rest, l = first ++ a :: b :: rest ∧ first.length = n := by
  refine ⟨l.take n, l[n], l[n + 1], l.drop (n + 2), ?_, by simp; omega⟩
  simp

theorem HalfOpen.granted_iff (half : HalfOpen 1 cb) : granted cb times ≤ 2 ↔ times.length < 2 ^ 63 := by
  constructor
  · intro few
    by_contra long
    obtain ⟨first, last, again, rest, rfl, length⟩ := exists_split (l := times) (n := 2 ^ 63 - 2) (by omega)
    have top := half.after first (by omega)
    have two := half.granted_eq first (by omega)
    rw [length] at top two
    have more := HalfOpen.granted_wrapped top last again rest
    rw [granted_append] at few
    omega
  · intro short
    rw [half.granted_eq times (by omega)]
    omega

end

theorem Counted.opens {threshold : Int64} {calls : List Operation} {cb : CircuitBreaker}
    (counted : Counted threshold calls cb) (call : Operation) :
    cb.state ≠ .stateOpen ∧ (breaker.handle cb call).1.state = .stateOpen ↔ ∃ now, call = .failure now ∧
        (cb.state = .stateHalfOpen ∨ cb.state = .stateClosed ∧ failures (calls ++ [call]) = threshold.toInt) := by
  cases call with
  | success | reset => simp [breaker, CircuitBreaker.success, CircuitBreaker.reset]
  | allow now =>
    have stays : cb.state ≠ .stateOpen → (cb.allow now).1.state ≠ .stateOpen := by
      rcases cb.allow_cases now with ⟨closed, asked⟩ | ⟨shut, -⟩ | ⟨shut, -⟩ | ⟨half, asked⟩
      · simp [asked, closed]
      · simp [shut]
      · simp [shut]
      · simp [asked, CircuitBreaker.counted, half]
    simpa [breaker_allow] using stays
  | failure now =>
    have next : failures (calls ++ [.failure now]) = failures calls + 1 := failures_concat calls _
    have state := counted.failure_state now
    simp only [breaker_failure, state]
    cases before : cb.state with
    | stateOpen => simp
    | stateHalfOpen => simp
    | stateClosed =>
      have below := counted.below before
      have reached : ¬ failures (calls ++ [.failure now]) < threshold.toInt ↔
          failures (calls ++ [.failure now]) = threshold.toInt := by
        omega
      simp [← reached]

theorem Probe.answers {cb : CircuitBreaker} {calls before : List Operation} {now : Int} {times : List Int}
    (probe : Probe cb calls before now times) (maxReqs : (breaker.after cb before).halfOpenMaxReqs = 3) :
    ∃ half : CircuitBreaker, HalfOpen 1 half ∧
      (breaker.run (breaker.after cb before) (.allow now :: times.map .allow)).2.count true =
        1 + granted half times := by
  have entered := probe.entered
  rw [Component.after_concat, breaker_allow] at entered
  have shut := probe.shut
  rcases (breaker.after cb before).allow_cases now with
    ⟨closed, -⟩ | ⟨-, -, asked⟩ | ⟨-, -, asked⟩ | ⟨half, -⟩
  · rw [shut] at closed
    cases closed
  · simp [asked, shut] at entered
  · refine ⟨(breaker.after cb before).halfOpened, ⟨rfl, maxReqs, rfl⟩, ?_⟩
    rw [Component.run_cons, count_append, breaker_allow, asked]
    rfl
  · rw [shut] at half
    cases half

/-- A breaker counts exactly if and only if it is called less than 2 ^ 63 times in a row while it is half
open. -/
theorem exact_iff {threshold : Int64} (positive : 0 < threshold.toInt) (recoveryTimeout : Int64)
    (calls : List Operation) :
    Exact (newCircuitBreaker threshold recoveryTimeout) calls ↔
      ∀ before now times, Probe (newCircuitBreaker threshold recoveryTimeout) calls before now times →
        times.length < 2 ^ 63 := by
  have counted := counted_after threshold recoveryTimeout positive
  constructor
  · intro exact_ before now times probe
    have few := exact_.probes before now times probe
    obtain ⟨half, halfOpen, answers⟩ := probe.answers (counted before).maxReqs
    exact halfOpen.granted_iff.mp (by omega)
  · intro short
    constructor
    · intro before _ closed
      exact (counted before).below closed
    · intro before call _
      rw [Component.after_concat]
      exact (counted before).opens call
    · intro before now times probe
      obtain ⟨half, halfOpen, answers⟩ := probe.answers (counted before).maxReqs
      have few := halfOpen.granted_iff.mpr (short before now times probe)
      omega

/-- One failure opens the breaker, and after the timeout three calls are admitted. -/
theorem exact_probed :
    let calls : List Operation := [.allow 0, .failure 1, .allow 2, .allow 3, .allow 3, .allow 3]
    Exact (newCircuitBreaker 1 0) calls ∧
      (breaker.run (newCircuitBreaker 1 0) calls).2 = [true, true, true, true, false] := by
  intro calls
  refine ⟨(exact_iff (by decide) 0 calls).mpr ?_, by decide⟩
  intro before now times probe
  have length := probe.part.length_le
  simp [calls] at length
  omega

def hammered (times : List Int) : List Operation := .failure 0 :: .allow 1 :: times.map .allow

theorem probe_hammered (times : List Int) : Probe (newCircuitBreaker 1 0) (hammered times) [.failure 0] 1 times :=
  ⟨prefix_rfl, rfl, rfl⟩

theorem hammered_few {times : List Int} (exact_ : Exact (newCircuitBreaker 1 0) (hammered times)) :
    (breaker.run (newCircuitBreaker 1 0) (hammered times)).2.count true ≤ 3 :=
  exact_.probes _ _ _ (probe_hammered times)

theorem hammered_many {times : List Int} (many : 2 ^ 63 ≤ times.length) :
    3 < (breaker.run (newCircuitBreaker 1 0) (hammered times)).2.count true := by
  obtain ⟨half, halfOpen, answers⟩ := (probe_hammered times).answers rfl
  have wrapped : ¬ granted half times ≤ 2 := by
    rw [halfOpen.granted_iff]
    omega
  have more : 3 < 1 + granted half times := by omega
  rw [← answers] at more
  exact more

/-- More than three calls are admitted when the counter has wrapped. -/
theorem hammered_admits :
    let calls := hammered (List.replicate (2 ^ 63) 1)
    3 < (breaker.run (newCircuitBreaker 1 0) calls).2.count true ∧ ¬ Exact (newCircuitBreaker 1 0) calls := by
  intro calls
  have long : 2 ^ 63 ≤ (List.replicate (2 ^ 63) (1 : Int)).length :=
    Nat.le_of_eq length_replicate.symm
  have admitted := hammered_many long
  exact ⟨admitted, fun exact_ => absurd admitted (Nat.not_lt.mpr (hammered_few exact_))⟩

end FlowRulZ.Reliability
