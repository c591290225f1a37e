import FlowRulZ.Node.MessageCalls

/-! # Calls and the ingress

The ingress takes a message in one step and is told what its execution returns.  Every run of
the calls, the agents and the executions is one of the ingress: a call that has marked its key
is a delivery, and what `SubmitAndWait` returns is its result.
-/

namespace FlowRulZ.Messages

open List Function

open DeadLetters Dedup Incoming

def Call.outcome (c : Call) : Option (Except String Bytes) :=
  match c.stage with
  | .returned result => some result
  | _ => none

/-- The calls that have marked their keys are deliveries of their own. -/
structure Refines (s : Node) (t : Ingress) (place : Nat → Option Nat) : Prop where
  dedup : t.dedup = s.dedup
  dlq : t.dlq = s.dlq
  started : ∀ i d, place i = some d → ∃ c, s.calls[i]? = some c ∧ (c.Underway ∨ c.outcome ≠ none) ∧
    t.deliveries[d]? = some ⟨c.body, c.outcome⟩
  underway : ∀ (i : Nat) c, s.calls[i]? = some c → c.Underway → place i ≠ none
  apart : ∀ i j d, place i = some d → place j = some d → i = j

namespace Refines

variable {s : Node} {t : Ingress} {place : Nat → Option Nat} {i d : Nat} {c c' : Call}

theorem place_none (refines : Refines s t place) (here : s.calls[i]? = some c) (idle : ¬ c.Underway)
    (still : c.outcome = none) : place i = none := by
  cases found : place i with
  | none => rfl
  | some d =>
    obtain ⟨c', there, kind, -⟩ := refines.started i d found
    rw [here] at there
    cases there
    exact absurd still (kind.resolve_left idle)

variable {s' : Node}

section

variable (refines : Refines s t place)
include refines

theorem of_calls (dedup : s'.dedup = s.dedup) (dlq : s'.dlq = s.dlq)
    (calls : s'.calls = s.calls) : Refines s' t place :=
  ⟨refines.dedup.trans dedup.symm, refines.dlq.trans dlq.symm, calls ▸ refines.started, calls ▸ refines.underway,
    refines.apart⟩

variable (here : s.calls[i]? = some c)
include here

theorem finish_eq (found : place i = some d) (busy : c.outcome = none) (result : Except String Bytes) :
    Incoming.finish d result t = (match result with
      | .ok _ => { t with deliveries := t.deliveries.set d ⟨c.body, some result⟩ }
      | .error e =>
        { t with
          deliveries := t.deliveries.set d ⟨c.body, some result⟩
          dlq := (t.dlq.send (failedEntry c.body e)).1 }, [.returned c.body result]) := by
  obtain ⟨c', there, -, delivered⟩ := refines.started i d found
  rw [here] at there
  cases there
  rw [busy] at delivered
  unfold Incoming.finish
  rw [delivered]
  cases result with
  | ok out => rfl
  | error e => simp only [DLQ.sendNew, failedEntry]

variable (calls : s'.calls = s.calls.set i c')
include calls

theorem setCall {t' : Ingress} (dedup : t'.dedup = s'.dedup) (dlq : t'.dlq = s'.dlq)
    (own : ∀ d, place i = some d → (c'.Underway ∨ c'.outcome ≠ none) ∧ t'.deliveries[d]? = some ⟨c'.body, c'.outcome⟩)
    (marked : c'.Underway → place i ≠ none)
    (others : ∀ j d, j ≠ i → place j = some d → t'.deliveries[d]? = t.deliveries[d]?) : Refines s' t' place := by
  refine ⟨dedup, dlq, ?_, ?_, refines.apart⟩
  · intro j d found
    rw [calls]
    obtain ⟨e, there, kind, delivered⟩ := refines.started j d found
    rcases Table.after_set here there with ⟨rfl, -, now⟩ | ⟨other, now⟩
    · exact ⟨c', now _, own d found⟩
    · exact ⟨e, now _, kind, by rw [others j d other found, delivered]⟩
  · intro j e there busy
    rw [calls] at there
    rcases Table.of_set there with ⟨rfl, rfl⟩ | ⟨-, old⟩
    · exact marked busy
    · exact refines.underway j e old busy

/-- A call moves on and has neither marked its key nor returned in this step. -/
theorem quiet (dedup : s'.dedup = s.dedup) (dlq : s'.dlq = s.dlq)
    (body : c'.body = c.body) (same : c'.Underway ↔ c.Underway) (still : c.outcome = none)
    (still' : c'.outcome = none) : Refines s' t place := by
  refine refines.setCall here calls (refines.dedup.trans dedup.symm) (refines.dlq.trans dlq.symm) ?_ ?_
    fun _ _ _ _ => rfl
  · intro d found
    obtain ⟨e, there, kind, delivered⟩ := refines.started i d found
    rw [here] at there
    cases there
    exact ⟨kind.imp same.mpr (by simp [still]), by rw [delivered, body, still, still']⟩
  · exact fun busy => refines.underway i c here (same.mp busy)

theorem leave {t' : Ingress} (dedup : t'.dedup = s'.dedup) (dlq : t'.dlq = s'.dlq)
    (idle : ¬ c.Underway) (still : c.outcome = none) (idle' : ¬ c'.Underway)
    (same : t'.deliveries = t.deliveries) : Refines s' t' place := by
  have unplaced := refines.place_none here idle still
  refine refines.setCall here calls dedup dlq ?_ (fun busy => absurd busy idle') fun _ _ _ _ => by rw [same]
  intro d found
  rw [unplaced] at found
  cases found

theorem finish (result : Except String Bytes) (dedup : s'.dedup = s.dedup)
    (dlq : s'.dlq = match result with | .ok _ => s.dlq | .error e => (s.dlq.send (failedEntry c.body e)).1)
    (busy : c.Underway) (body : c'.body = c.body) (finished : c'.stage = .returned result) :
    ∃ ops place, Refines s' (ingress.after t ops) place := by
  obtain ⟨d, found⟩ := Option.ne_none_iff_exists'.mp (refines.underway i c here busy)
  have still : c.outcome = none := by
    rcases busy with marked | waiting | ⟨e, failed⟩ <;> simp [Call.outcome, *]
  have returns := refines.finish_eq here found still result
  obtain ⟨_, there, -, delivered⟩ := refines.started i d found
  have outcome : c'.outcome = some result := by simp [Call.outcome, finished]
  refine ⟨[.finish d result], place, ?_⟩
  change Refines s' (Incoming.finish d result t).1 place
  rw [returns]
  refine refines.setCall here calls ?_ ?_ ?_ ?_ ?_
  · cases result <;> exact refines.dedup.trans dedup.symm
  · cases result with
    | ok out => exact refines.dlq.trans dlq.symm
    | error e => simp only [refines.dlq, dlq]
  · intro d' found'
    rw [found] at found'
    cases found'
    refine ⟨.inr (by simp [outcome]), ?_⟩
    rw [body, outcome]
    cases result <;> exact Table.set_self delivered
  · simp [Call.Underway, finished]
  · intro j d' other found'
    have differ : d ≠ d' := by
      rintro rfl
      exact other (refines.apart j i d found' found)
    cases result <;> exact getElem?_set_ne differ

end

section

variable (refines : Refines s t place)
include refines

theorem mark {dedup : DedupTracker} (here : s.calls[i]? = some c)
    (calls : s'.calls = s.calls.set i { c with stage := .marked }) (marked : s'.dedup = dedup) (dlq : s'.dlq = s.dlq)
    (unplaced : place i = none) :
    Refines s' { t with dedup, deliveries := t.deliveries ++ [⟨c.body, none⟩] }
      (Function.update place i (some t.deliveries.length)) := by
  have old (j d : Nat) (found : place j = some d) : d < t.deliveries.length := by
    obtain ⟨_, -, -, delivered⟩ := refines.started j d found
    exact Table.lt_length delivered
  refine ⟨marked.symm, refines.dlq.trans dlq.symm, ?_, ?_, ?_⟩
  · intro j d found
    rw [calls]
    by_cases same : j = i
    · subst same
      rw [update_self] at found
      cases found
      exact ⟨_, Table.set_self here, .inl (.inl rfl), getElem?_concat_length ..⟩
    · rw [update_of_ne same] at found
      obtain ⟨e, there, kind, delivered⟩ := refines.started j d found
      exact ⟨e, by rw [getElem?_set_ne (Ne.symm same), there], kind,
        (getElem?_append_left (old j d found)).trans delivered⟩
  · intro j e there busy
    rw [calls] at there
    rcases Table.of_set there with ⟨rfl, rfl⟩ | ⟨other, before⟩
    · simp
    · rw [update_of_ne other]
      exact refines.underway j e before busy
  · intro j k d found found'
    by_cases first : j = i <;> by_cases second : k = i
    · rw [first, second]
    · subst first
      rw [update_self] at found
      rw [update_of_ne second] at found'
      cases found
      exact absurd (old k _ found') (Nat.lt_irrefl _)
    · subst second
      rw [update_of_ne first] at found
      rw [update_self] at found'
      cases found'
      exact absurd (old j _ found) (Nat.lt_irrefl _)
    · rw [update_of_ne first] at found
      rw [update_of_ne second] at found'
      exact refines.apart j k d found found'

theorem check (here : s.calls[i]? = some c) (admitted : c.stage = .admitted)
    (now : Nat) : ∃ ops place, Refines (s.go i c (.check now)) (ingress.after t ops) place := by
  have idle : ¬ c.Underway := by simp [Call.Underway, admitted]
  have still : c.outcome = none := by simp [Call.outcome, admitted]
  have unplaced := refines.place_none here idle still
  have flag := s.dedup.checkAndMark_seen now (hashBody c.body)
  refine ⟨[.arrive now true c.body], ?_⟩
  change ∃ place, Refines _ (Incoming.arrive now true c.body t).1 place
  simp only [Node.go, admitted]
  rcases arrive_admitted t now c.body with ⟨seen, arrived⟩ | ⟨unseen, arrived⟩ <;> rw [arrived]
  · rw [refines.dedup] at seen
    simp only [flag, seen, ↓reduceIte]
    exact ⟨place, refines.leave here rfl (by rw [refines.dedup]) refines.dlq idle still (by simp [Call.Underway]) rfl⟩
  · rw [refines.dedup] at unseen
    simp only [flag, unseen, ↓reduceIte]
    exact ⟨_, refines.mark here rfl (by rw [refines.dedup]) rfl unplaced⟩

theorem go (here : s.calls[i]? = some c) (event : CallEvent) :
    ∃ ops place, Refines (s.go i c event) (ingress.after t ops) place := by
  have same : ∃ ops place, Refines s (ingress.after t ops) place := ⟨[], place, refines⟩
  cases event with
  | allow admitted =>
    simp only [Node.go]
    split
    next entered =>
      refine ⟨[], place, refines.quiet here rfl rfl rfl rfl ?_ ?_ ?_⟩ <;>
        cases admitted <;> simp [Call.Underway, Call.outcome, entered]
    next => exact same
  | limit =>
    simp only [Node.go]
    split
    next limited =>
      refine ⟨[.arrive 0 false c.body], place, ?_⟩
      change Refines _ (Incoming.arrive 0 false c.body t).1 place
      refine refines.leave here rfl ((dedup_limited ..).trans refines.dedup) ?_ (by simp [Call.Underway, limited])
        (by simp [Call.outcome, limited]) (by simp [Call.Underway]) (deliveries_limited ..)
      simp only [Incoming.arrive, Bool.not_false, ↓reduceIte, DLQ.sendNew, refines.dlq, Node.send, limitedEntry]
    next => exact same
  | check now =>
    by_cases admitted : c.stage = .admitted
    · exact refines.check here admitted now
    · simp only [Node.go, admitted]
      exact same
  | submit | refuse | cancel | halt =>
    simp only [Node.go]
    split
    · refine ⟨[], place, refines.quiet here rfl rfl rfl rfl ?_ ?_ ?_⟩ <;> simp_all [Call.Underway, Call.outcome]
    · exact same
  | receive =>
    simp only [Node.go]
    split
    next waiting =>
      split
      next out _ =>
        exact refines.finish here rfl (.ok out) rfl rfl (.inr (.inl waiting)) rfl rfl
      next =>
        refine ⟨[], place, refines.quiet here rfl rfl rfl rfl ?_ ?_ ?_⟩ <;>
          simp [Call.Underway, Call.outcome, waiting]
      next => exact same
    next => exact same
  | deadLetter =>
    simp only [Node.go]
    split
    next e failed =>
      exact refines.finish here rfl (.error e) rfl rfl (.inr (.inr ⟨e, failed⟩)) rfl rfl
    next => exact same

theorem answer (result : Except String Bytes) : Refines (s.answer i result) t place := by
  refine ⟨refines.dedup, refines.dlq, ?_, ?_, refines.apart⟩
  · intro j d found
    obtain ⟨c, there, kind, delivered⟩ := refines.started j d found
    refine ⟨_, by rw [Node.getElem?_answer, there, Option.map_some], ?_, ?_⟩
    · split <;> exact kind
    · split <;> exact delivered
  · intro j c there busy
    rw [Node.getElem?_answer, Option.map_eq_some_iff] at there
    obtain ⟨c, there, rfl⟩ := there
    apply refines.underway j c there
    split at busy <;> exact busy

theorem act {a : Nat} {agent : Agent} (event : AgentEvent) : Refines (s.act a agent event) t place := by
  cases event with
  | loop | wake | take | begin =>
    simp only [Node.act]
    split
    · exact refines.of_calls rfl rfl rfl
    · exact refines
  | drain =>
    simp only [Node.act]
    split
    · apply Refines.answer
      exact refines.of_calls rfl rfl rfl
    · exact refines.of_calls rfl rfl rfl
    · exact refines
  | panic value =>
    simp only [Node.act]
    split
    · apply Refines.answer
      exact refines.of_calls rfl rfl rfl
    · split
      · apply Refines.answer
        exact refines.of_calls rfl rfl rfl
      · exact refines
    · exact refines
  | result =>
    simp only [Node.act]
    split
    · split
      · split
        · apply Refines.answer
          exact refines.of_calls rfl rfl rfl
        · exact refines
      · exact refines
    · exact refines

theorem call (body : Bytes) : Refines { s with calls := s.calls ++ [{ body }] } t place := by
  refine ⟨refines.dedup, refines.dlq, ?_, ?_, refines.apart⟩
  · intro j d found
    obtain ⟨c, there, rest⟩ := refines.started j d found
    exact ⟨c, Table.append_left there, rest⟩
  · intro j c there busy
    rcases Table.of_concat there with old | ⟨-, rfl⟩
    · exact refines.underway j c old busy
    · simp [Call.Underway] at busy

theorem step (event : Event) : ∃ ops place, Refines (s.step event) (ingress.after t ops) place := by
  have same : ∃ ops place, Refines s (ingress.after t ops) place := ⟨[], place, refines⟩
  cases event with
  | call body => exact ⟨[], place, refines.call body⟩
  | go i event =>
    simp only [Node.step]
    split
    next c here => exact refines.go here event
    next => exact same
  | cleanup now =>
    refine ⟨[.cleanup now], place, ?_⟩
    change Refines _ { t with dedup := t.dedup.cleanup now } place
    rw [refines.dedup]
    exact ⟨rfl, refines.dlq, refines.started, refines.underway, refines.apart⟩
  | spawn | stopAgent | stop => exact ⟨[], place, refines.of_calls rfl rfl rfl⟩
  | agent a event =>
    simp only [Node.step]
    split
    · exact ⟨[], place, refines.act event⟩
    · exact same
  | stopQueue =>
    simp only [Node.step]
    split
    · exact ⟨[], place, refines.of_calls rfl rfl rfl⟩
    · exact same
  | exec x event =>
    simp only [Node.step]
    split
    · split
      · exact same
      · exact ⟨[], place, refines.of_calls rfl rfl rfl⟩
    · exact same

end

end Refines

/-- Every run of the calls, the agents and the executions is one of the ingress. -/
theorem calls_refine_ingress (maxSize ttl : Int) (dlq : DLQ) (queueSize execSem : Nat) (events : List Event) :
    ∃ ops place, Refines (Node.component.after (start maxSize ttl dlq queueSize execSem) events)
      (ingress.after (Incoming.start maxSize ttl dlq) ops) place := by
  refine Component.after_of_invariant
    (P := fun s : Node => ∃ ops place, Refines s (ingress.after (Incoming.start maxSize ttl dlq) ops) place) ?_ ?_
  · exact ⟨[], fun _ => none, rfl, rfl, by simp, by simp [start], by simp⟩
  · rintro s event - ⟨ops, place, refines⟩
    obtain ⟨more, place, refines⟩ := refines.step event
    exact ⟨ops ++ more, place, by rwa [Component.after_append]⟩

end FlowRulZ.Messages
