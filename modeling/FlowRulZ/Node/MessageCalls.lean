import FlowRulZ.Node.ExecuteAll
import FlowRulZ.Node.Ingress

/-! # Calls of `handleIncomingMessage`

Any number of calls, the agents that execute their tasks and the executions themselves, in any
interleaving, with contexts that end, agents that are started and stopped and `Stop` of the
pool.  A message whose call has returned is not lost: a call for the same key is still there,
has been executed or is a dead letter.
-/

namespace FlowRulZ.Messages

open List

open DeadLetters Dedup Incoming

inductive Stage where
  | entered
  | limited
  | admitted
  | marked
  | waiting
  | failed (e : String)
  | returned (result : Except String Bytes)
  deriving Repr, DecidableEq

structure Call where
  body : Bytes
  stage : Stage := .entered
  resultCh : Option (Except String Bytes) := none
  /-- What it has passed to `DLQ.Send`, and what that returned. -/
  sent : Option (DeadLetterEntry × Option SendError) := none
  deriving Repr, DecidableEq

inductive AgentStage where
  | looping
  | dequeuing
  | taken (i : Nat)
  | executing (x : Nat)
  | draining
  | stopped
  deriving Repr, DecidableEq

structure Agent where
  stage : AgentStage := .looping
  stop : Bool := false
  deriving Repr, DecidableEq

structure Execution where
  call : Nat
  exec : Exec
  deriving Repr, DecidableEq

structure Node where
  dedup : DedupTracker
  dlq : DLQ
  calls : List Call := []
  queue : List Nat := []
  queueSize : Nat
  poolStopped : Bool := false
  queueStopped : Bool := false
  agents : List Agent := []
  executions : List Execution := []
  /-- The size of `execSem`. -/
  execSem : Nat

inductive CallEvent where
  | allow (admitted : Bool)
  | limit
  | check (now : Nat)
  | submit
  /-- `EnqueueWait` returns false since the queue is stopped, or its context has ended. -/
  | refuse (e : Option CtxErr)
  | receive
  | cancel (e : CtxErr)
  | halt
  | deadLetter
  deriving Repr, DecidableEq

inductive AgentEvent where
  | loop
  | take
  | wake (ctxDone : Bool)
  | drain
  | begin (plans : Nat) (available : Bool)
  | panic (value : String)
  | result
  deriving Repr, DecidableEq

inductive Event where
  | call (body : Bytes)
  | go (i : Nat) (event : CallEvent)
  | cleanup (now : Nat)
  | spawn
  | agent (a : Nat) (event : AgentEvent)
  | stopAgent (a : Nat)
  | stop
  | stopQueue
  | exec (x : Nat) (event : ExecEvent)
  deriving Repr, DecidableEq

def limitedEntry (body : Bytes) : DeadLetterEntry :=
  { id := hashBodyPrefixed "rl" body, body, error := "rate limited" }

def failedEntry (body : Bytes) (e : String) : DeadLetterEntry := { id := hashBody body, body, error := e }

namespace Node

variable (s : Node)

def setCall (i : Nat) (c : Call) : Node := { s with calls := s.calls.set i c }

/-- `DLQ.Send`, after which the call returns. -/
def send (i : Nat) (c : Call) (entry : DeadLetterEntry) (result : Except String Bytes) : Node :=
  let sent := s.dlq.send entry
  { s.setCall i { c with stage := .returned result, sent := some (entry, sent.2.2) } with dlq := sent.1 }

def go (i : Nat) (c : Call) : CallEvent → Node
  | .allow admitted =>
    if c.stage = .entered then s.setCall i { c with stage := if admitted then .admitted else .limited } else s
  | .limit => if c.stage = .limited then s.send i c (limitedEntry c.body) (.ok []) else s
  | .check now =>
    if c.stage = .admitted then
      let (dedup, seen) := s.dedup.checkAndMark now (hashBody c.body)
      { s.setCall i { c with stage := if seen then .returned (.ok []) else .marked } with dedup }
    else s
  | .submit =>
    if c.stage = .marked ∧ s.queue.length < s.queueSize then
      { s.setCall i { c with stage := .waiting } with queue := s.queue ++ [i] }
    else s
  | .refuse e =>
    if c.stage = .marked ∧ (e = none → s.queueStopped) then
      s.setCall i { c with stage := .failed "pool: queue full or stopped" }
    else s
  | .receive =>
    if c.stage = .waiting then
      match c.resultCh with
      | some (.ok out) => s.setCall i { c with stage := .returned (.ok out), resultCh := none }
      | some (.error e) => s.setCall i { c with stage := .failed e, resultCh := none }
      | none => s
    else s
  | .cancel e => if c.stage = .waiting then s.setCall i { c with stage := .failed e.text } else s
  | .halt =>
    if c.stage = .waiting ∧ s.poolStopped then s.setCall i { c with stage := .failed "pool: stopped" } else s
  | .deadLetter =>
    match c.stage with
    | .failed e => s.send i c (failedEntry c.body e) (.error e)
    | _ => s

def answer (i : Nat) (result : Except String Bytes) : Node :=
  { s with calls := s.calls.modify i fun c => { c with resultCh := c.resultCh.or (some result) } }

def setAgent (a : Nat) (agent : Agent) : Node := { s with agents := s.agents.set a agent }

def agentID (a : Nat) : String := s!"agent-{a + 1}"

def output : Except String (List Bytes) → Except String Bytes
  | .ok results => .ok (results.headD [])
  | .error e => .error e

def act (a : Nat) (agent : Agent) : AgentEvent → Node
  | .loop =>
    if agent.stage = .looping then
      s.setAgent a { agent with stage := if agent.stop then .draining else .dequeuing }
    else s
  | .take =>
    match agent.stage, s.queue with
    | .dequeuing, i :: queue => { s.setAgent a { agent with stage := .taken i } with queue }
    | _, _ => s
  | .wake ctxDone =>
    if agent.stage = .dequeuing ∧ (s.queueStopped ∨ ctxDone) then
      s.setAgent a { agent with stage := if !agent.stop && ctxDone then .stopped else .looping }
    else s
  | .drain =>
    match agent.stage, s.queue with
    | .draining, i :: queue => answer { s with queue } i (.error s!"agent {agentID a}: stopped")
    | .draining, [] => s.setAgent a { agent with stage := .stopped }
    | _, _ => s
  | .begin plans available =>
    match agent.stage with
    | .taken i =>
      { s.setAgent a { agent with stage := .executing s.executions.length } with
        executions := s.executions ++ [⟨i, executeAll plans available⟩] }
    | _ => s
  | .panic value =>
    match agent.stage with
    | .taken i =>
      (s.setAgent a { agent with stage := .looping }).answer i (.error s!"agent {agentID a}: task panicked: {value}")
    | .executing x =>
      match s.executions[x]? with
      | some execution =>
        (s.setAgent a { agent with stage := .looping }).answer execution.call
          (.error s!"agent {agentID a}: task panicked: {value}")
      | none => s
    | _ => s
  | .result =>
    match agent.stage with
    | .executing x =>
      match s.executions[x]? with
      | some ⟨i, exec⟩ =>
        match exec.returned with
        | some result => (s.setAgent a { agent with stage := .looping }).answer i (output result)
        | none => s
      | none => s
    | _ => s

def inUse : Nat := (s.executions.map fun x => x.exec.runs.countP (·.waiting ≠ .reported)).sum

def step : Event → Node
  | .call body => { s with calls := s.calls ++ [{ body }] }
  | .go i event =>
    match s.calls[i]? with
    | some c => s.go i c event
    | none => s
  | .cleanup now => { s with dedup := s.dedup.cleanup now }
  | .spawn => { s with agents := s.agents ++ [{}] }
  | .agent a event =>
    match s.agents[a]? with
    | some agent => s.act a agent event
    | none => s
  | .stopAgent a => { s with agents := s.agents.modify a fun agent => { agent with stop := true } }
  | .stop => { s with poolStopped := true }
  | .stopQueue => if s.poolStopped then { s with queueStopped := true } else s
  | .exec x event =>
    match s.executions[x]? with
    | some ⟨i, exec⟩ =>
      if event = .acquire ∧ s.execSem ≤ s.inUse then s
      else { s with executions := s.executions.set x ⟨i, exec.step event⟩ }
    | none => s

def component : Component Node Event Unit where
  handle s event := (s.step event, [])

end Node

def start (maxSize ttl : Int) (dlq : DLQ) (queueSize execSem : Nat) : Node :=
  { dedup := newDedupTracker maxSize ttl, dlq, queueSize, execSem }

/-- `Send` has put the entry into the queue; it may still have failed to produce it. -/
def Accepted (err : Option SendError) : Prop := ∀ id, err ≠ some (.invalidEntryID id)

namespace Call

def InProgress (c : Call) : Prop := ∀ result, c.stage ≠ .returned result

/-- It has passed an entry with its body to `Send`, which accepted it. -/
def DeadLettered (c : Call) : Prop :=
  ∃ entry err, c.sent = some (entry, err) ∧ entry.body = c.body ∧ Accepted err

def Underway (c : Call) : Prop := c.stage = .marked ∨ c.stage = .waiting ∨ ∃ e, c.stage = .failed e

end Call

namespace Node

def Executed (s : Node) (i : Nat) : Prop :=
  ∃ (x : Nat) (exec : Exec) (results : List Bytes),
    s.executions[x]? = some ⟨i, exec⟩ ∧ exec.returned = some (.ok results)

/-- A call that others may rely on. -/
def Held (s : Node) (i : Nat) (c : Call) : Prop := c.Underway ∨ s.Executed i ∨ c.DeadLettered

def Safe (s : Node) (key : String) : Prop := ∃ (k : Nat) (c : Call), s.calls[k]? = some c ∧ hashBody c.body = key ∧ s.Held k c

structure Sound (s : Node) : Prop where
  marked : ∀ key, s.dedup.seen key = true → s.Safe key
  answered : ∀ (i : Nat) c out, s.calls[i]? = some c → c.resultCh = some (.ok out) → s.Executed i
  returned : ∀ (i : Nat) c result, s.calls[i]? = some c → c.stage = .returned result → s.Safe (hashBody c.body)

end Node

theorem digitChar_isAlphanum (n : Nat) : (n % 16).digitChar.isAlphanum = true := by
  have all : ∀ d < 16, (Nat.digitChar d).isAlphanum = true := by decide
  exact all _ (Nat.mod_lt _ (by decide))

theorem safeID_hashBody (body : Bytes) : safeID (hashBody body) = true := by
  simp [safeID, hashBody, digitChar_isAlphanum]

theorem safeID_limited (body : Bytes) : safeID (hashBodyPrefixed "rl" body) = true := by
  have text : (hashBodyPrefixed "rl" body).toList = ['r', 'l', '-'] ++ (hashBody body).toList := by
    simp [hashBodyPrefixed, toString]
  have safe := safeID_hashBody body
  simp only [safeID, Bool.and_eq_true] at safe
  simp only [safeID, text, all_append, safe.2]
  simp [hashBodyPrefixed, toString]

namespace Node

variable {s : Node} {i : Nat} {c c' : Call} {key : String}

def Later (s s' : Node) : Prop :=
  ∀ (k : Nat) (c : Call), s.calls[k]? = some c →
    ∃ c', s'.calls[k]? = some c' ∧ c'.body = c.body ∧ (s.Held k c → s'.Held k c')

theorem Safe.later {s' : Node} (later : Later s s') (safe : s.Safe key) : s'.Safe key := by
  obtain ⟨k, c, there, same, held⟩ := safe
  obtain ⟨c', there', body, held'⟩ := later k c there
  exact ⟨k, c', there', by rw [body, same], held' held⟩

theorem sound_setCall {dedup : DedupTracker} {dlq : DLQ} {queue : List Nat} (sound : s.Sound)
    (here : s.calls[i]? = some c) (body : c'.body = c.body) (held : s.Held i c → s.Held i c')
    (channel : ∀ out, c'.resultCh = some (.ok out) → c.resultCh = some (.ok out))
    (marked : ∀ key, dedup.seen key = true → s.dedup.seen key = true ∨ hashBody c.body = key ∧ s.Held i c')
    (returned : ∀ result, c'.stage = .returned result → s.Safe (hashBody c.body) ∨ s.Held i c') :
    Sound { s.setCall i c' with dedup, dlq, queue } := by
  have later : Later s { s.setCall i c' with dedup, dlq, queue } := by
    intro k d there
    rcases Table.after_set here there with ⟨rfl, rfl, now⟩ | ⟨-, now⟩
    · exact ⟨c', now _, body, held⟩
    · exact ⟨d, now _, rfl, id⟩
  have own (now : s.Held i c') : Safe { s.setCall i c' with dedup, dlq, queue } (hashBody c.body) :=
    ⟨i, c', Table.set_self here, by rw [body], now⟩
  constructor
  · intro key seen
    rcases marked key seen with before | ⟨rfl, now⟩
    · exact (sound.marked key before).later later
    · exact own now
  · intro k d out there full
    rcases Table.of_set there with ⟨rfl, rfl⟩ | ⟨-, old⟩
    · exact sound.answered k c out here (channel out full)
    · exact sound.answered k d out old full
  · intro k d result there finished
    rcases Table.of_set there with ⟨rfl, rfl⟩ | ⟨-, old⟩
    · rw [body]
      rcases returned result finished with safe | now
      · exact safe.later later
      · exact own now
    · exact (sound.returned k d result old finished).later later

theorem getElem?_answer (s : Node) (i : Nat) (result : Except String Bytes) (k : Nat) : (s.answer i result).calls[k]? =
      (s.calls[k]?).map fun c => if i = k then { c with resultCh := c.resultCh.or (some result) } else c := by
  simp only [answer, getElem?_modify]
  split <;> simp

theorem sound_answer {result : Except String Bytes} (sound : s.Sound)
    (genuine : ∀ out, result = .ok out → s.Executed i) : Sound (s.answer i result) := by
  have later : Later s (s.answer i result) := by
    intro k c there
    refine ⟨_, by rw [getElem?_answer, there, Option.map_some], ?_, ?_⟩
    · split <;> rfl
    · split <;> exact id
  constructor
  · exact fun key seen => (sound.marked key seen).later later
  · intro k d out there full
    rw [getElem?_answer, Option.map_eq_some_iff] at there
    obtain ⟨c, there, rfl⟩ := there
    split at full
    next own =>
      subst own
      rcases Option.or_eq_some_iff.mp full with before | ⟨-, now⟩
      · exact sound.answered i c out there before
      · cases now
        exact genuine out rfl
    next => exact sound.answered k c out there full
  · intro k d r there finished
    rw [getElem?_answer, Option.map_eq_some_iff] at there
    obtain ⟨c, there, rfl⟩ := there
    have same : c.stage = .returned r := by
      split at finished <;> exact finished
    have safe := (sound.returned k c r there same).later later
    split <;> exact safe

theorem held_of_idle (idle : ¬ c.Underway) (body : c'.body = c.body) (sent : c'.sent = c.sent) :
    s.Held i c → s.Held i c' := by
  rintro (underway | executed | dead)
  · exact absurd underway idle
  · exact .inr (.inl executed)
  · right; right
    simpa only [Call.DeadLettered, body, sent] using dead

section

variable (sound : s.Sound)
include sound

theorem sound_executions {executions : List Execution} {agents : List Agent}
    (kept : ∀ i, s.Executed i → Executed { s with executions } i) : Sound { s with executions, agents } := by
  have later : Later s { s with executions, agents } := by
    intro k c there
    refine ⟨c, there, rfl, ?_⟩
    rintro (underway | executed | dead)
    · exact .inl underway
    · exact .inr (.inl (kept k executed))
    · exact .inr (.inr dead)
  constructor
  · exact fun key seen => (sound.marked key seen).later later
  · exact fun k c out there full => kept k (sound.answered k c out there full)
  · exact fun k c result there finished => (sound.returned k c result there finished).later later

theorem sound_agents {agents : List Agent} {queue : List Nat} {poolStopped queueStopped : Bool} :
    Sound { s with agents, queue, poolStopped, queueStopped } :=
  ⟨sound.marked, sound.answered, sound.returned⟩


variable (here : s.calls[i]? = some c)
include here

theorem sound_send {entry : DeadLetterEntry} {result : Except String Bytes} (safe : safeID entry.id = true)
    (own : entry.body = c.body) :
    Sound (s.send i c entry result) := by
  have held : s.Held i { c with stage := .returned result, sent := some (entry, (s.dlq.send entry).2.2) } :=
    .inr (.inr ⟨entry, _, rfl, own, by simp [Accepted, DLQ.send, safe, Option.bind_eq_some_iff]⟩)
  exact sound_setCall sound here rfl (fun _ => held) (fun _ => id) (fun _ => .inl) fun _ _ => .inr held

theorem sound_underway {queue : List Nat} (body : c'.body = c.body)
    (underway : c'.Underway) (channel : ∀ out, c'.resultCh = some (.ok out) → c.resultCh = some (.ok out)) :
    Sound { s.setCall i c' with queue } :=
  sound_setCall sound here body (fun _ => .inl underway) channel (fun _ => .inl) fun _ _ => .inr (.inl underway)

theorem sound_check (now : Nat) (admitted : c.stage = .admitted) :
    Sound { s.setCall i { c with
      stage := if (s.dedup.checkAndMark now (hashBody c.body)).2 then .returned (.ok []) else .marked } with
      dedup := (s.dedup.checkAndMark now (hashBody c.body)).1 } := by
  have others := (s.dedup.seen_checkAndMark now (hashBody c.body)).2
  have idle : ¬ c.Underway := by simp [Call.Underway, admitted]
  rw [DedupTracker.checkAndMark_seen]
  cases seen : s.dedup.seen (hashBody c.body) with
  | true =>
    -- Another call has marked the key.
    have safe := sound.marked _ seen
    refine sound_setCall sound here rfl (held_of_idle idle rfl rfl) (fun _ => id) ?_ fun _ _ => .inl safe
    intro key kept
    rcases others key kept with before | rfl
    · exact .inl before
    · exact .inl seen
  | false =>
    have held : s.Held i { c with stage := .marked } := .inl (.inl rfl)
    refine sound_setCall sound here rfl (fun _ => held) (fun _ => id) ?_ nofun
    intro key kept
    rcases others key kept with before | rfl
    · exact .inl before
    · exact .inr ⟨rfl, held⟩

theorem sound_go (event : CallEvent) : Sound (s.go i c event) := by
  cases event with
  | allow admitted =>
    simp only [go]
    split
    next entered =>
      have idle : ¬ c.Underway := by simp [Call.Underway, entered]
      refine sound_setCall sound here rfl (held_of_idle idle rfl rfl) (fun _ => id) (fun _ => .inl) ?_
      cases admitted <;> nofun
    next => exact sound
  | limit =>
    simp only [go]
    split
    · exact sound_send sound here (safeID_limited c.body) rfl
    · exact sound
  | check now =>
    simp only [go]
    split
    next admitted => exact sound_check sound here now admitted
    next => exact sound
  | submit =>
    simp only [go]
    split
    · exact sound_underway sound here rfl (.inr (.inl rfl)) fun _ => id
    · exact sound
  | refuse | cancel | halt =>
    simp only [go]
    split
    · exact sound_underway sound here rfl (.inr (.inr ⟨_, rfl⟩)) fun _ => id
    · exact sound
  | receive =>
    simp only [go]
    split
    next =>
      split
      next out full =>
        have held : s.Held i { c with stage := .returned (.ok out), resultCh := none } :=
          .inr (.inl (sound.answered i c out here full))
        exact sound_setCall sound here rfl (fun _ => held) nofun (fun _ => .inl) fun _ _ => .inr held
      next => exact sound_underway sound here rfl (.inr (.inr ⟨_, rfl⟩)) nofun
      next => exact sound
    next => exact sound
  | deadLetter =>
    simp only [go]
    split
    · exact sound_send sound here (safeID_hashBody c.body) rfl
    · exact sound

end

theorem sound_act {a : Nat} {agent : Agent} (sound : s.Sound) (event : AgentEvent) : Sound (s.act a agent event) := by
  cases event with
  | loop | wake =>
    simp only [act]
    split
    · exact sound_agents sound
    · exact sound
  | take =>
    simp only [act]
    split
    · exact sound_agents (sound_agents sound)
    · exact sound
  | drain =>
    simp only [act]
    split
    · exact sound_answer (sound_agents sound) nofun
    · exact sound_agents sound
    · exact sound
  | begin plans available =>
    simp only [act]
    split
    · refine sound_executions (sound_agents sound) ?_
      rintro i ⟨x, exec, results, there, returned⟩
      refine ⟨x, exec, results, ?_, returned⟩
      exact Table.append_left there
    · exact sound
  | panic value =>
    simp only [act]
    split
    · exact sound_answer (sound_agents sound) nofun
    · split
      · exact sound_answer (sound_agents sound) nofun
      · exact sound
    · exact sound
  | result =>
    simp only [act]
    split
    next x executing =>
      split
      next i exec there =>
        split
        next result returned =>
          refine sound_answer (sound_agents sound) ?_
          intro out same
          cases result with
          | ok results => exact ⟨x, exec, results, there, returned⟩
          | error e => cases same
        next => exact sound
      next => exact sound
    next => exact sound

theorem sound_exec {x : Nat} {exec : Exec} (sound : s.Sound) (here : s.executions[x]? = some ⟨i, exec⟩)
    (event : ExecEvent) : Sound { s with executions := s.executions.set x ⟨i, exec.step event⟩ } := by
  refine sound_executions sound ?_
  rintro k ⟨y, exec', results, there, returned⟩
  rcases Table.after_set here there with ⟨rfl, same, now⟩ | ⟨-, now⟩
  · cases same
    exact ⟨y, _, results, now _, Exec.returned_step returned event⟩
  · exact ⟨y, exec', results, now _, returned⟩

theorem sound_call (sound : s.Sound) (body : Bytes) : Sound { s with calls := s.calls ++ [{ body }] } := by
  have later : Later s { s with calls := s.calls ++ [{ body }] } := by
    intro k c there
    exact ⟨c, Table.append_left there, rfl, id⟩
  constructor
  · exact fun key seen => (sound.marked key seen).later later
  · intro k c out there full
    rcases Table.of_concat there with before | ⟨-, rfl⟩
    · exact sound.answered k c out before full
    · cases full
  · intro k c result there finished
    rcases Table.of_concat there with before | ⟨-, rfl⟩
    · exact (sound.returned k c result before finished).later later
    · cases finished

theorem sound_step (sound : s.Sound) (event : Event) : Sound (s.step event) := by
  cases event with
  | call body => exact sound_call sound body
  | go i event =>
    simp only [step]
    split
    next c here => exact sound_go sound here event
    next => exact sound
  | cleanup now =>
    exact ⟨fun key seen => sound.marked key (DedupTracker.seen_cleanup seen), sound.answered, sound.returned⟩
  | spawn | stopAgent | stop => exact sound_agents sound
  | agent a event =>
    simp only [step]
    split
    · exact sound_act sound event
    · exact sound
  | stopQueue =>
    simp only [step]
    split
    · exact sound_agents sound
    · exact sound
  | exec x event =>
    simp only [step]
    split
    next i exec here =>
      split
      · exact sound
      · exact sound_exec sound here event
    next => exact sound

theorem sound_start (maxSize ttl : Int) (dlq : DLQ) (queueSize execSem : Nat) :
    (start maxSize ttl dlq queueSize execSem).Sound := by
  refine ⟨?_, by simp [start], by simp [start]⟩
  intro key seen
  simp only [start, newDedupTracker, DedupTracker.seen] at seen
  split at seen <;> simp at seen

/-- If a call has returned, then a call for the same key is in progress, or `executeAll` has returned
without an error for it, or it has passed an entry with its body to `DLQ.Send`, which accepted it. -/
theorem returned_accounted (maxSize ttl : Int) (dlq : DLQ) (queueSize execSem : Nat) (events : List Event) :
    let s := component.after (start maxSize ttl dlq queueSize execSem) events
    ∀ (i : Nat) c result, s.calls[i]? = some c → c.stage = .returned result →
      ∃ (k : Nat) (other : Call), s.calls[k]? = some other ∧ hashBody other.body = hashBody c.body ∧
        (other.InProgress ∨ s.Executed k ∨ other.DeadLettered) := by
  intro s i c result there returned
  have sound : s.Sound := Component.after_of_invariant (P := Sound)
    (sound_start maxSize ttl dlq queueSize execSem) fun _ sound => sound_step sound _
  obtain ⟨k, other, found, same, held⟩ := sound.returned i c result there returned
  refine ⟨k, other, found, same, held.imp_left ?_⟩
  rintro (marked | waiting | ⟨e, failed⟩) result finished
  · simp [marked] at finished
  · simp [waiting] at finished
  · simp [failed] at finished

/-- A message is executed, by one plan, and then delivered again. -/
def repeated : List Event :=
  [.spawn, .call [1], .go 0 (.allow true), .go 0 (.check 0), .go 0 .submit, .agent 0 .loop, .agent 0 .take,
    .agent 0 (.begin 1 true), .exec 0 .acquire, .exec 0 (.run 0 .enqueue), .exec 0 (.run 0 .pick),
    .exec 0 (.run 0 (.complete (.ok [2]))), .exec 0 (.run 0 .receive), .exec 0 .collect, .exec 0 .finish,
    .agent 0 .result, .go 0 .receive, .call [1], .go 1 (.allow true), .go 1 (.check 1)]

/-- Both calls have returned, and the second one relies on the first. -/
theorem returned_accounted_repeated :
    let s := component.after (start 100 0 (newDLQ 100 none "") 10 10) repeated
    s.calls.map (·.stage) = [.returned (.ok [2]), .returned (.ok [])] ∧
      ∃ (k : Nat) (other : Call), s.calls[k]? = some other ∧ hashBody other.body = hashBody [1] ∧
        (other.InProgress ∨ s.Executed k ∨ other.DeadLettered) := by
  refine ⟨by decide +kernel, ?_⟩
  exact returned_accounted 100 0 (newDLQ 100 none "") 10 10 repeated 1 { body := [1], stage := .returned (.ok []) }
    (.ok []) (by decide +kernel) rfl

end Node

end FlowRulZ.Messages
