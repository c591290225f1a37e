import FlowRulZ.Lib.Component

/-! # The reply router

A request waits in the map of pending requests with the channel for its reply.  Only the call that deletes its key
gets hold of it, and sends and closes outside of the lock.  All that were ever registered are kept here.
-/

namespace FlowRulZ.ReplyRouter

open List

/-- Where a request is: in the map, or with the call that took it out. -/
inductive Stage where
  | pending
  | delivering
  | closing
  | done
  deriving Repr, DecidableEq

inductive Use where
  | sent
  | closed
  deriving Repr, DecidableEq

structure PendingRequest where
  correlationID : String
  deadline : Nat
  replyCh : List Use := []
  closed : Bool := false
  stage : Stage := .pending
  delivered : Nat := 0
  deriving Repr, DecidableEq

namespace PendingRequest

variable (pr : PendingRequest)

/-- `Deliver` takes the request out of the map, or `Cancel` or `cleanup` does. -/
def take (delivers : Bool) : PendingRequest :=
  if delivers then { pr with stage := .delivering, delivered := pr.delivered + 1 } else { pr with stage := .closing }

def closeOnce : PendingRequest :=
  if pr.closed then pr else { pr with closed := true, replyCh := pr.replyCh ++ [.closed] }

/-- The call that holds the request goes on; nothing is sent if the channel is not ready. -/
def proceed (ready : Bool) : PendingRequest :=
  match pr.stage with
  | .delivering => { pr with stage := .closing, replyCh := if ready then pr.replyCh ++ [.sent] else pr.replyCh }
  | .closing => { pr.closeOnce with stage := .done }
  | _ => pr

/-- What has happened to a request, by where it is. -/
def Used : Prop :=
  match pr.stage with
  | .pending => pr.replyCh = [] ∧ pr.delivered = 0 ∧ pr.closed = false
  | .delivering => pr.replyCh = [] ∧ pr.delivered = 1 ∧ pr.closed = false
  | .closing => (pr.replyCh = [] ∨ pr.replyCh = [.sent]) ∧ pr.delivered ≤ 1 ∧ pr.closed = false
  | .done => (pr.replyCh = [.closed] ∨ pr.replyCh = [.sent, .closed]) ∧ pr.delivered ≤ 1

variable {pr}

theorem used_take (used : pr.Used) (there : pr.stage = .pending) (delivers : Bool) : (pr.take delivers).Used := by
  rw [Used, there] at used
  cases delivers <;> simp [take, Used, used]

theorem used_proceed (used : pr.Used) (ready : Bool) : (pr.proceed ready).Used := by
  cases stage : pr.stage with
  | pending | done => simpa [proceed, stage] using used
  | delivering =>
    rw [Used, stage] at used
    cases ready <;> simp [proceed, stage, Used, used]
  | closing =>
    rw [Used, stage] at used
    obtain ⟨nothing | message, once, still⟩ := used <;> simp [proceed, closeOnce, Used, *]

theorem pending_of_proceed {ready : Bool} (there : (pr.proceed ready).stage = .pending) : pr.stage = .pending := by
  cases stage : pr.stage <;> simp [proceed, stage] at there ⊢

end PendingRequest

structure Router where
  maxPending : Int
  requests : List PendingRequest := []

inductive Action where
  | register (correlationID : String) (deadline : Nat)
  | deliver (correlationID : String)
  | cancel (correlationID : String)
  | cleanup (now : Nat)
  | proceed (i : Nat) (ready : Bool)

namespace Router

variable (rr : Router)

def pending : List PendingRequest := rr.requests.filter (·.stage = .pending)

/-- `Register` with a fresh channel, and its error. -/
def register (correlationID : String) (deadline : Nat) : Router × Option String :=
  if correlationID = "" then (rr, some "replyrouter: empty correlation ID")
  else if rr.pending.any (·.correlationID = correlationID) then (rr, some "replyrouter: duplicate correlation ID")
  else if 0 < rr.maxPending ∧ rr.maxPending ≤ rr.pending.length then
    (rr, some "replyrouter: max pending requests reached")
  else ({ rr with requests := rr.requests ++ [{ correlationID, deadline }] }, none)

def change (f : Nat → PendingRequest → PendingRequest) : Router := { rr with requests := rr.requests.mapIdx f }

/-- The section in which requests are taken out of the map. -/
def takeAll (delivers : Bool) (which : PendingRequest → Bool) : Router :=
  rr.change fun _ pr => if pr.stage = .pending ∧ which pr then pr.take delivers else pr

def step : Action → Router
  | .register correlationID deadline => (rr.register correlationID deadline).1
  | .deliver correlationID => rr.takeAll true (·.correlationID = correlationID)
  | .cancel correlationID => rr.takeAll false (·.correlationID = correlationID)
  | .cleanup now => rr.takeAll false (·.deadline < now)
  | .proceed i ready => rr.change fun k pr => if k = i then pr.proceed ready else pr

def component : Component Router Action Unit where
  handle rr action := (rr.step action, [])

def Sound (maxPending : Int) : Prop :=
  rr.maxPending = maxPending ∧ (∀ pr ∈ rr.requests, pr.Used) ∧ (0 < maxPending → rr.pending.length ≤ maxPending)

variable {rr} {maxPending : Int} (sound : rr.Sound maxPending)
include sound

/-- No request gets back into the map. -/
theorem sound_change {f : Nat → PendingRequest → PendingRequest} (used : ∀ i pr, pr.Used → (f i pr).Used)
    (out : ∀ i pr, (f i pr).stage = .pending → pr.stage = .pending) : (rr.change f).Sound maxPending := by
  obtain ⟨limit, before, few⟩ := sound
  refine ⟨limit, ?_, fun positive => Int.le_trans (Int.ofNat_le.mpr ?_) (few positive)⟩
  · intro pr there
    obtain ⟨i, inside, rfl⟩ := mem_mapIdx.mp there
    exact used i _ (before _ (getElem_mem inside))
  · rw [pending, pending, change, ← countP_eq_length_filter, ← countP_eq_length_filter, mapIdx_eq_zipIdx_map,
      countP_map]
    calc rr.requests.zipIdx.countP _
      _ ≤ rr.requests.zipIdx.countP ((·.stage = .pending) ∘ Prod.fst) :=
        countP_mono_left fun entry _ => by simpa using out _ _
      _ = rr.requests.countP (·.stage = .pending) := by rw [← countP_map, zipIdx_map_fst]

theorem sound_takeAll (delivers : Bool) (which : PendingRequest → Bool) :
    (rr.takeAll delivers which).Sound maxPending := by
  refine sound_change sound (fun _ pr used => ?_) fun _ pr => ?_
  · split_ifs with there
    · exact pr.used_take used there.1 delivers
    · exact used
  · split_ifs with there
    · exact fun _ => there.1
    · exact id

theorem sound_step (action : Action) : (rr.step action).Sound maxPending := by
  cases action with
  | register correlationID deadline =>
    rw [step, register]
    split_ifs with _ _ full
    iterate 3 exact sound
    obtain ⟨limit, used, few⟩ := sound
    refine ⟨limit, ?_, fun positive => ?_⟩
    · simpa [or_imp, forall_and, PendingRequest.Used] using used
    · simp [pending] at *
      omega
  | deliver | cancel | cleanup => exact sound_takeAll sound ..
  | proceed i ready =>
    refine sound_change sound (fun k pr used => ?_) fun k pr there => ?_
    · split_ifs
      · exact pr.used_proceed used ready
      · exact used
    · split_ifs at there
      · exact pr.pending_of_proceed there
      · exact there

end Router

/-- For any interleaving, what is registered is closed once, by the call that takes it out of the map; at most one
message is sent, before that, and `Deliver` returns true at most once. -/
theorem channels_used_once (maxPending : Int) (actions : List Action) :
    let rr := Router.component.after { maxPending } actions
    (∀ pr ∈ rr.requests, pr.Used ∧
      ∀ ready ready', pr.stage ≠ .pending → ((pr.proceed ready).proceed ready').stage = .done) ∧
      (0 < maxPending → rr.pending.length ≤ maxPending) := by
  have sound : (Router.component.after { maxPending } actions).Sound maxPending :=
    Component.after_of_invariant (P := (Router.Sound · maxPending)) ⟨rfl, nofun, Int.le_of_lt⟩
      fun _ sound => Router.sound_step sound _
  refine ⟨fun pr there => ⟨sound.2.1 pr there, fun ready ready' out => ?_⟩, sound.2.2⟩
  cases stage : pr.stage <;> simp [PendingRequest.proceed, stage] at out ⊢

end FlowRulZ.ReplyRouter
