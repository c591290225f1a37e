import FlowRulZ.Lib.Component
import Mathlib.Algebra.Ring.Int.Defs
import Mathlib.Data.List.Induction
import Mathlib.Data.List.Pairwise
import Mathlib.Order.Basic

/-! # The circuit breaker

`CircuitBreaker` refuses calls after too many failures, until its recovery timeout is over.
Its callers ask it with `Allow`, and an admitted caller may report how its call went.  Each
operation holds the lock from its start to its end, so any number of callers is an interleaving
of operations.  Times are readings of the clock in nanoseconds.
-/

namespace FlowRulZ.Reliability

open List

inductive State where
  | stateClosed
  | stateHalfOpen
  | stateOpen
  deriving Repr, DecidableEq

structure CircuitBreaker where
  state : State := .stateClosed
  failureCount : Int64 := 0
  /-- The zero time, at first; it is not read before a failure. -/
  lastFailureTime : Int := 0
  threshold : Int64
  recoveryTimeout : Int64
  halfOpenMaxReqs : Int64 := 3
  halfOpenReqs : Int64 := 0
  deriving Repr, DecidableEq

def newCircuitBreaker (threshold recoveryTimeout : Int64) : CircuitBreaker :=
  { threshold, recoveryTimeout }

/-- `time.Since`, a `Duration` that stays within its range. -/
def since (now t : Int) : Int := max Int64.minValue.toInt (min Int64.maxValue.toInt (now - t))

namespace CircuitBreaker

variable (cb : CircuitBreaker)

def allow (now : Int) : CircuitBreaker × Bool :=
  match cb.state with
  | .stateClosed => (cb, true)
  | .stateOpen =>
    if cb.recoveryTimeout.toInt < since now cb.lastFailureTime then
      ({ cb with state := .stateHalfOpen, halfOpenReqs := 1 }, true)
    else (cb, false)
  | .stateHalfOpen =>
    -- the counter moves on for refused calls as well
    ({ cb with halfOpenReqs := cb.halfOpenReqs + 1 }, cb.halfOpenReqs < cb.halfOpenMaxReqs)

def success : CircuitBreaker := { cb with state := .stateClosed, failureCount := 0 }

def failure (now : Int) : CircuitBreaker :=
  let failureCount := cb.failureCount + 1
  { cb with
    failureCount
    lastFailureTime := now
    state := if cb.state = .stateHalfOpen ∨ cb.threshold ≤ failureCount then .stateOpen else cb.state }

/-- The breaker that admits the first call after its timeout. -/
def halfOpened : CircuitBreaker := { cb with state := .stateHalfOpen, halfOpenReqs := 1 }

def counted : CircuitBreaker := { cb with halfOpenReqs := cb.halfOpenReqs + 1 }

theorem allow_cases (now : Int) : cb.state = .stateClosed ∧ cb.allow now = (cb, true) ∨
      cb.state = .stateOpen ∧ since now cb.lastFailureTime ≤ cb.recoveryTimeout.toInt ∧ cb.allow now = (cb, false) ∨
      cb.state = .stateOpen ∧ cb.recoveryTimeout.toInt < since now cb.lastFailureTime ∧
        cb.allow now = (cb.halfOpened, true) ∨
      cb.state = .stateHalfOpen ∧ cb.allow now = (cb.counted, decide (cb.halfOpenReqs < cb.halfOpenMaxReqs)) := by
  cases state : cb.state with
  | stateClosed => simp [allow, state]
  | stateHalfOpen => simp [allow, state, counted]
  | stateOpen =>
    by_cases expired : cb.recoveryTimeout.toInt < since now cb.lastFailureTime
    · simp [allow, state, expired, halfOpened]
    · simp [allow, state, expired, Int.not_lt.mp expired]

end CircuitBreaker

inductive Report where
  | success
  | failure
  deriving Repr, DecidableEq

/-- What a caller does, and when: it asks, or it is done, with or without a report. -/
inductive Event (ι : Type) where
  | allow (now : Int) (caller : ι)
  | done (now : Int) (caller : ι) (report : Option Report)
  deriving Repr, DecidableEq

variable {ι : Type}

def Event.time : Event ι → Int
  | .allow now _ => now
  | .done now _ _ => now

def Event.report : Event ι → Option Report
  | .allow _ _ => none
  | .done _ _ report => report

def CircuitBreaker.take (cb : CircuitBreaker) (now : Int) : Option Report → CircuitBreaker
  | none => cb
  | some .success => cb.success
  | some .failure => cb.failure now

/-- A breaker and the callers that it has admitted and that are not done. -/
structure Traffic (ι : Type) where
  breaker : CircuitBreaker
  inFlight : List ι := []
  deriving Repr, DecidableEq

variable [DecidableEq ι]

/-- Callers around a breaker; the outputs are the answers of `Allow`. -/
def traffic : Component (Traffic ι) (Event ι) (ι × Bool) where
  handle s
    | .allow now caller =>
      let (breaker, ok) := s.breaker.allow now
      (⟨breaker, if ok then caller :: s.inFlight else s.inFlight⟩, [(caller, ok)])
    | .done now caller report => (⟨s.breaker.take now report, s.inFlight.erase caller⟩, [])

/-- A caller asks when it is not waiting for a call, and is done only after it was admitted. -/
def Permitted (s : Traffic ι) : Event ι → Prop
  | .allow _ caller => caller ∉ s.inFlight
  | .done _ caller _ => caller ∈ s.inFlight

instance (s : Traffic ι) (e : Event ι) : Decidable (Permitted s e) :=
  match e with
  | .allow _ caller => inferInstanceAs (Decidable (caller ∉ s.inFlight))
  | .done _ caller _ => inferInstanceAs (Decidable (caller ∈ s.inFlight))

/-- An interleaving of callers with a monotone clock. -/
structure Schedule (ι : Type) [DecidableEq ι] (cb : CircuitBreaker) where
  events : List (Event ι)
  permitted : traffic.Throughout Permitted ⟨cb, []⟩ events
  monotone : events.Pairwise (·.time ≤ ·.time)

/-- A breaker that has been open since a failure at a time, or after it. -/
structure OpenSince (t : Int) (timeout : Int64) (cb : CircuitBreaker) : Prop where
  state : cb.state = .stateOpen
  failed : t ≤ cb.lastFailureTime
  timeout : cb.recoveryTimeout = timeout

section

variable {t now : Int} {timeout : Int64} {cb : CircuitBreaker}

theorem since_le {limit : Int64} (elapsed : now - t ≤ limit.toInt) : since now t ≤ limit.toInt := by
  have least := Int64.minValue_le_toInt limit
  unfold since
  omega

theorem OpenSince.refuses (opened : OpenSince t timeout cb) (within : now ≤ t + timeout.toInt) :
    cb.allow now = (cb, false) := by
  have early : since now cb.lastFailureTime ≤ cb.recoveryTimeout.toInt := by
    apply since_le
    have failed := opened.failed
    rw [opened.timeout]
    omega
  have shut := opened.state
  rcases cb.allow_cases now with ⟨closed, -⟩ | ⟨-, -, refused⟩ | ⟨-, late, -⟩ | ⟨half, -⟩
  · rw [shut] at closed
    cases closed
  · exact refused
  · omega
  · rw [shut] at half
    cases half

theorem OpenSince.failure (opened : OpenSince t timeout cb) (later : t ≤ now) :
    OpenSince t timeout (cb.failure now) where
  state := by simp only [CircuitBreaker.failure, opened.state, ite_self]
  failed := later
  timeout := opened.timeout

theorem OpenSince.handle {s : Traffic ι} {e : Event ι} (opened : OpenSince t timeout s.breaker)
    (later : t ≤ e.time) (within : e.time ≤ t + timeout.toInt) (noSuccess : e.report ≠ some .success) :
    OpenSince t timeout (traffic.handle s e).1.breaker := by
  cases e with
  | allow now caller =>
    have refused : s.breaker.allow now = (s.breaker, false) := opened.refuses within
    simp only [traffic, refused]
    exact opened
  | done now caller report =>
    cases report with
    | none => exact opened
    | some report =>
      cases report with
      | success => exact absurd rfl noSuccess
      | failure => exact opened.failure later

end

theorem CircuitBreaker.allow_recoveryTimeout (cb : CircuitBreaker) (now : Int) :
    (cb.allow now).1.recoveryTimeout = cb.recoveryTimeout := by
  rcases cb.allow_cases now with ⟨-, asked⟩ | ⟨-, -, asked⟩ | ⟨-, -, asked⟩ | ⟨-, asked⟩ <;> rw [asked] <;> rfl

theorem after_recoveryTimeout (cb : CircuitBreaker) (events : List (Event ι)) :
    (traffic.after ⟨cb, []⟩ events).breaker.recoveryTimeout = cb.recoveryTimeout := by
  refine Component.after_of_invariant (P := fun s : Traffic ι => s.breaker.recoveryTimeout = cb.recoveryTimeout) rfl ?_
  intro s e _ same
  cases e with
  | allow now caller => exact (s.breaker.allow_recoveryTimeout now).trans same
  | done now caller report =>
    rcases report with _ | _ | _
    · exact same
    · exact same
    · exact same

section

variable {cb : CircuitBreaker} {before after : List (Event ι)} {t : Int} {caller : ι}

theorem Schedule.ordered {run : Schedule ι cb} {e : Event ι} (split : run.events = before ++ e :: after) :
    (∀ e' ∈ after, e.time ≤ e'.time) ∧ after.Pairwise (·.time ≤ ·.time) := by
  have monotone := run.monotone
  rw [split, pairwise_append] at monotone
  exact pairwise_cons.mp monotone.2.1

/-- A breaker that a failure has opened refuses every call up to the end of its recovery timeout if and only if no
success is reported until then. -/
theorem refuses_iff_no_success (run : Schedule ι cb)
    (split : run.events = before ++ .done t caller (some .failure) :: after)
    (opens : (traffic.after ⟨cb, []⟩ (before ++ [.done t caller (some .failure)])).breaker.state = .stateOpen) :
    (∀ soFar now, soFar <+: after → t ≤ now → (∀ e ∈ soFar, e.time ≤ now) → now ≤ t + cb.recoveryTimeout.toInt →
        ((traffic.after ⟨cb, []⟩ (before ++ .done t caller (some .failure) :: soFar)).breaker.allow now).2 = false) ↔
      ∀ e ∈ after, e.report = some .success → t + cb.recoveryTimeout.toInt < e.time := by
  obtain ⟨later, sorted⟩ := Schedule.ordered split
  constructor
  · intro refuses e member succeeded
    by_contra early
    obtain ⟨earlier, rest, rfl⟩ := append_of_mem member
    -- right after the success the breaker is closed
    have upTo : ∀ e' ∈ earlier ++ [e], e'.time ≤ e.time := by
      intro e' member'
      rcases mem_append.mp member' with inEarlier | last
      · exact (pairwise_append.mp sorted).2.2 e' inEarlier e mem_cons_self
      · exact (mem_singleton.mp last) ▸ Int.le_refl _
    have refused := refuses (earlier ++ [e]) e.time ⟨rest, by simp⟩ (later e member) upTo (Int.not_lt.mp early)
    rw [← cons_append, ← append_assoc, Component.after_concat] at refused
    cases e with
    | allow now caller => cases succeeded
    | done now caller report =>
      cases succeeded
      cases refused
  · intro noSuccess soFar now part _ upTo within
    have opened : OpenSince t cb.recoveryTimeout
        (traffic.after ⟨cb, []⟩ (before ++ [.done t caller (some .failure)])).breaker := by
      refine ⟨opens, ?_, after_recoveryTimeout cb _⟩
      rw [Component.after_concat]
      exact Int.le_refl t
    have stays : OpenSince t cb.recoveryTimeout
        (traffic.after ⟨cb, []⟩ (before ++ .done t caller (some .failure) :: soFar)).breaker := by
      rw [append_cons, Component.after_append]
      refine Component.after_of_invariant (P := fun s : Traffic ι => OpenSince t cb.recoveryTimeout s.breaker) opened ?_
      intro s e member before
      have inWindow : e.time ≤ t + cb.recoveryTimeout.toInt := Int.le_trans (upTo e member) within
      refine before.handle (later e (part.subset member)) inWindow fun succeeded => ?_
      exact absurd (noSuccess e (part.subset member) succeeded) (Int.not_lt.mpr inWindow)
    rw [stays.refuses within]

end

def overtaken : Schedule Nat (newCircuitBreaker 1 30) where
  events := [.allow 0 0, .allow 0 1, .done 1 0 (some .failure), .done 2 1 (some .success)]
  permitted := by decide
  monotone := by decide

theorem refuses_after_failure :
    let first : Schedule Nat (newCircuitBreaker 1 30) :=
      ⟨[.allow 0 0, .done 1 0 (some .failure)], by decide, by decide⟩
    ((traffic.after ⟨newCircuitBreaker 1 30, []⟩ first.events).breaker.allow 31).2 = false := by
  intro first
  have split : first.events = [.allow 0 0] ++ .done 1 0 (some .failure) :: [] := rfl
  have refuses := (refuses_iff_no_success first split rfl).mpr (forall_mem_nil _)
  exact refuses [] 31 prefix_rfl (by decide) (forall_mem_nil _) (by decide)

/-- A call that was admitted before the breaker opened can close it at once. -/
theorem late_success_admits :
    let fresh : Traffic Nat := ⟨newCircuitBreaker 1 30, []⟩
    let before : List (Event Nat) := [.allow 0 0, .allow 0 1]
    let opening : Event Nat := .done 1 0 (some .failure)
    overtaken.events = before ++ opening :: [.done 2 1 (some .success)] ∧
      (traffic.after fresh before).breaker.state ≠ .stateOpen ∧
      (traffic.after fresh (before ++ [opening])).breaker.state = .stateOpen ∧
      2 ≤ opening.time + (newCircuitBreaker 1 30).recoveryTimeout.toInt ∧
      ((traffic.after fresh overtaken.events).breaker.allow 2).2 = true := by
  decide

/-- The calls that were done without a report since the last report. -/
def unreported (events : List (Event ι)) : Nat :=
  events.foldl (fun n e => match e with
    | .allow _ _ => n
    | .done _ _ none => n + 1
    | .done _ _ (some _) => 0) 0

/-- The requests that a half-open breaker has counted are not more than the calls it waits for, or those are as many as
it admits. -/
def Probing (reqs : Int64) (waiting : Nat) : Prop := reqs.toInt ≤ waiting ∨ 3 ≤ waiting

theorem toInt_add_one {n : Int64} (room : n.toInt < 2 ^ 63 - 1) : (n + 1).toInt = n.toInt + 1 := by
  have least := Int64.minValue_le_toInt n
  rw [show Int64.minValue.toInt = -2 ^ 63 from rfl] at least
  rw [Int64.toInt_add, show (1 : Int64).toInt = 1 from rfl, Int.bmod_eq_of_le] <;> omega

theorem toInt_succ {reqs : Int64} (few : reqs < 3) : (reqs + 1).toInt = reqs.toInt + 1 := by
  have small : reqs.toInt < 3 := Int64.lt_iff_toInt_lt.mp few
  apply toInt_add_one
  omega

theorem Probing.next {reqs : Int64} {waiting : Nat} (probing : Probing reqs waiting) :
    Probing (reqs + 1) (if reqs < 3 then waiting + 1 else waiting) := by
  by_cases few : reqs < 3
  · rw [if_pos few]
    rcases probing with counted | full
    · left
      rw [toInt_succ few]
      omega
    · right
      omega
  · -- a breaker that refuses has admitted as many as it can
    rw [if_neg few]
    have large : 3 ≤ reqs.toInt := Int64.le_iff_toInt_le.mp (Int64.not_lt.mp few)
    right
    rcases probing with counted | full
    · omega
    · exact full

/-- What the breaker knows of the events so far. -/
structure Tended (events : List (Event ι)) (s : Traffic ι) : Prop where
  opened : s.breaker.state = .stateOpen →
    ∃ e ∈ events, e.report = some .failure ∧ e.time = s.breaker.lastFailureTime
  probing : s.breaker.state = .stateHalfOpen →
    Probing s.breaker.halfOpenReqs (s.inFlight.length + unreported events)
  maxReqs : s.breaker.halfOpenMaxReqs = 3

section

variable {events : List (Event ι)} {s : Traffic ι} {now : Int} {caller : ι}

omit [DecidableEq ι] in
theorem unreported_concat (events : List (Event ι)) (e : Event ι) :
    unreported (events ++ [e]) = match e with
      | .allow _ _ => unreported events
      | .done _ _ none => unreported events + 1
      | .done _ _ (some _) => 0 := by
  rw [unreported, foldl_concat]
  rfl

theorem Tended.allow (before : Tended events s) :
    Tended (events ++ [.allow now caller]) (traffic.handle s (.allow now caller)).1 := by
  rcases s.breaker.allow_cases now with ⟨closed, asked⟩ | ⟨shut, -, asked⟩ | ⟨-, -, asked⟩ | ⟨half, asked⟩ <;>
    simp only [traffic, asked]
  · exact ⟨fun shut => absurd (closed.symm.trans shut) State.noConfusion,
      fun half => absurd (closed.symm.trans half) State.noConfusion, before.maxReqs⟩
  · refine ⟨fun _ => ?_, fun half => absurd (shut.symm.trans half) State.noConfusion, before.maxReqs⟩
    obtain ⟨e, member, failed⟩ := before.opened shut
    exact ⟨e, mem_append_left _ member, failed⟩
  · refine ⟨State.noConfusion, fun _ => .inl ?_, before.maxReqs⟩
    simp only [if_true, length_cons, show s.breaker.halfOpened.halfOpenReqs.toInt = 1 from rfl]
    omega
  · refine ⟨fun shut => absurd (half.symm.trans shut) State.noConfusion, fun _ => ?_, before.maxReqs⟩
    have next : Probing s.breaker.counted.halfOpenReqs _ := (before.probing half).next
    rw [unreported_concat, before.maxReqs]
    by_cases few : s.breaker.halfOpenReqs < 3
    · simp only [few, if_true, decide_true, length_cons] at next ⊢
      rwa [Nat.add_right_comm]
    · simpa only [few, if_false, decide_false, Bool.false_eq_true] using next

theorem Tended.done (before : Tended events s) (report : Option Report) (admitted : caller ∈ s.inFlight) :
    Tended (events ++ [.done now caller report]) (traffic.handle s (.done now caller report)).1 := by
  cases report with
  | none =>
    refine ⟨fun shut => ?_, fun half => ?_, before.maxReqs⟩
    · obtain ⟨e, member, failed⟩ := before.opened shut
      exact ⟨e, mem_append_left _ member, failed⟩
    · have probing := before.probing half
      have some : 0 < s.inFlight.length := length_pos_of_mem admitted
      rw [unreported_concat]
      simp only [traffic, length_erase_of_mem admitted]
      rwa [show s.inFlight.length - 1 + (unreported events + 1) = s.inFlight.length + unreported events by omega]
  | some report =>
    cases report with
    | success => exact ⟨State.noConfusion, State.noConfusion, before.maxReqs⟩
    | failure =>
      refine ⟨fun _ => ⟨_, mem_append_right _ mem_cons_self, rfl, rfl⟩, fun half => ?_, before.maxReqs⟩
      -- a failure never leaves the breaker half open
      simp only [traffic, CircuitBreaker.take, CircuitBreaker.failure] at half
      split_ifs at half with opens
      exact absurd (.inl half) opens

theorem tended_after {cb : CircuitBreaker} (closed : cb.state = .stateClosed) (maxReqs : cb.halfOpenMaxReqs = 3)
    (permitted : traffic.Throughout Permitted ⟨cb, []⟩ events) :
    Tended events (traffic.after ⟨cb, []⟩ events) := by
  induction events using List.reverseRecOn with
  | nil => exact ⟨fun shut => absurd (closed.symm.trans shut) State.noConfusion,
      fun half => absurd (closed.symm.trans half) State.noConfusion, maxReqs⟩
  | append_singleton events e ih =>
    have before := ih permitted.of_append
    have here := Component.throughout_split _ permitted
    rw [Component.after_concat]
    cases e with
    | allow now caller => exact before.allow
    | done now caller report => exact before.done report here

omit [DecidableEq ι] in
/-- An idle breaker admits a call after its timeout, unless three calls have left it without a report. -/
theorem Tended.admits (tended : Tended events s) (idle : s.inFlight = [])
    (late : ∀ e ∈ events, e.report = some .failure → s.breaker.recoveryTimeout.toInt < since now e.time)
    (reported : unreported events < 3) : (s.breaker.allow now).2 = true := by
  rcases s.breaker.allow_cases now with ⟨-, asked⟩ | ⟨shut, early, -⟩ | ⟨-, -, asked⟩ | ⟨half, asked⟩
  · rw [asked]
  · obtain ⟨e, member, failed, time⟩ := tended.opened shut
    have expired := late e member failed
    rw [time] at expired
    omega
  · rw [asked]
  · have probing := tended.probing half
    rw [idle, length_nil] at probing
    have few : s.breaker.halfOpenReqs.toInt < 3 := by
      rcases probing with counted | full <;> omega
    rw [asked, tended.maxReqs]
    exact decide_eq_true (Int64.lt_iff_toInt_lt.mpr few)

end

end FlowRulZ.Reliability
