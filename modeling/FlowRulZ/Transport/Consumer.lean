import FlowRulZ.Bytecode.Plan
import FlowRulZ.Lib.Component

/-! # Consuming from Kafka

`ConsumeClaim` hands the messages of a partition to the handler one after the other, and marks
those that it handles.  Offsets are committed right after a mark, or by the session from time to
time.  To commit an offset is to commit all messages before it.
-/

namespace FlowRulZ.Kafka

open List

structure Message where
  offset : Int
  value : Bytes
  deriving Repr, DecidableEq

/-- `sarama.ConsumerGroupSession`, as far as the consumer uses it, and what its states `S` say of a partition: the
offsets that are marked and committed, and which messages will not be delivered again. -/
structure ConsumerGroupSession (S : Type) where
  markMessage : S → Message → S
  commit : S → S
  marked : S → Int
  committed : S → Int
  Commits : S → Message → Prop

/-- Its documentation: an offset is the one behind the last message, marks do not go back, a commit commits what is
marked, and with it all messages before. -/
structure ConsumerGroupSession.Documented {S : Type} (api : ConsumerGroupSession S) : Prop where
  marked_mark : ∀ s msg, api.marked (api.markMessage s msg) = max (api.marked s) (msg.offset + 1)
  committed_mark : ∀ s msg, api.committed (api.markMessage s msg) = api.committed s
  marked_commit : ∀ s, api.marked (api.commit s) = api.marked s
  committed_commit : ∀ s, api.committed (api.commit s) = api.marked s
  commits_iff : ∀ s msg, api.Commits s msg ↔ msg.offset < api.committed s

structure Delivery where
  msg : Message
  result : Except String Bytes
  deriving Repr, DecidableEq

def Delivery.failed (d : Delivery) : Prop := ∃ e, d.result = .error e

structure Consumer where
  manualCommit : Bool
  deriving Repr, DecidableEq

inductive Event where
  | message (d : Delivery)
  /-- The session commits what is marked, if that is not done by hand. -/
  | autoCommit
  deriving Repr, DecidableEq

namespace Consumer

variable {S : Type} (kc : Consumer) (api : ConsumerGroupSession S)

/-- The body of the loop of `ConsumeClaim`. -/
def consume (sess : S) (d : Delivery) : S :=
  match d.result with
  | .error _ => sess
  | .ok _ => if kc.manualCommit then api.commit (api.markMessage sess d.msg) else api.markMessage sess d.msg

def consumeClaim : Component S Event Unit where
  handle sess
    | .message d => (kc.consume api sess d, [])
    | .autoCommit => (if kc.manualCommit then sess else api.commit sess, [])

end Consumer

/-- The messages of a claim with their results, from the offset at which it starts. -/
structure Claim where
  start : Int
  deliveries : List Delivery
  behind : ∀ d ∈ deliveries, start ≤ d.msg.offset
  ordered : deliveries.Pairwise (·.msg.offset < ·.msg.offset)

def delivered (events : List Event) : List Delivery :=
  events.filterMap fun event => match event with
    | .message d => some d
    | .autoCommit => none

/-- Whenever the session commits, no message whose handler failed is committed. -/
def KeepsFailed {S : Type} (api : ConsumerGroupSession S) (sess : S) (kc : Consumer) (claim : Claim) : Prop :=
  ∀ events, delivered events = claim.deliveries →
    (kc.consumeClaim api).Always (fun sess => ∀ d ∈ claim.deliveries, d.failed → ¬ api.Commits sess d.msg) sess events

/-- The offsets that are committed are marked; under manual commits they are the same. -/
def Marks {S : Type} (api : ConsumerGroupSession S) (manualCommit : Bool) (sess : S) : Prop :=
  api.committed sess ≤ api.marked sess ∧ (manualCommit = true → api.committed sess = api.marked sess)

section

variable {S : Type} {api : ConsumerGroupSession S} (documented : api.Documented) {kc : Consumer} {sess : S} {d : Delivery}
include documented

/-- Only a message that is handled is marked. -/
theorem consume_cases (kc : Consumer) (sess : S) (d : Delivery) : d.failed ∧ kc.consume api sess d = sess ∨
      ¬ d.failed ∧ api.marked (kc.consume api sess d) = max (api.marked sess) (d.msg.offset + 1) ∧
        (api.committed (kc.consume api sess d) = api.marked (kc.consume api sess d) ∨
          kc.manualCommit = false ∧ api.committed (kc.consume api sess d) = api.committed sess) := by
  have marked := documented.marked_mark sess d.msg
  unfold Consumer.consume Delivery.failed
  cases d.result with
  | error e => exact .inl ⟨⟨e, rfl⟩, rfl⟩
  | ok out =>
    refine .inr ⟨by simp, ?_⟩
    cases kc.manualCommit with
    | true => exact ⟨(documented.marked_commit _).trans marked,
        .inl ((documented.committed_commit _).trans (documented.marked_commit _).symm)⟩
    | false => exact ⟨marked, .inr ⟨rfl, documented.committed_mark sess d.msg⟩⟩

theorem marks_step (event : Event) (marks : Marks api kc.manualCommit sess) :
    Marks api kc.manualCommit ((kc.consumeClaim api).handle sess event).1 := by
  obtain ⟨below, manual⟩ := marks
  cases event with
  | message d =>
    change Marks api kc.manualCommit (kc.consume api sess d)
    obtain ⟨_, kept⟩ | ⟨_, marked, same | ⟨auto, committed⟩⟩ := consume_cases documented kc sess d
    · rw [kept]
      exact ⟨below, manual⟩
    · exact ⟨by omega, fun _ => same⟩
    · refine ⟨by omega, ?_⟩
      simp [auto]
  | autoCommit =>
    have same := (documented.committed_commit sess).trans (documented.marked_commit sess).symm
    change Marks api kc.manualCommit (if kc.manualCommit then sess else api.commit sess)
    split
    · exact ⟨below, manual⟩
    · exact ⟨Int.le_of_eq same, fun _ => same⟩

theorem marked_handle (kc : Consumer) (sess : S) (event : Event) :
    api.marked ((kc.consumeClaim api).handle sess event).1 = api.marked sess ∨ ∃ d, event = .message d ∧ ¬ d.failed ∧
        api.marked ((kc.consumeClaim api).handle sess event).1 = max (api.marked sess) (d.msg.offset + 1) := by
  cases event with
  | message d =>
    obtain ⟨_, kept⟩ | ⟨succeeded, marked, _⟩ := consume_cases documented kc sess d
    · exact .inl (congrArg api.marked kept)
    · exact .inr ⟨d, rfl, succeeded, marked⟩
  | autoCommit =>
    left
    change api.marked (if kc.manualCommit then sess else api.commit sess) = api.marked sess
    split
    · rfl
    · exact documented.marked_commit sess

theorem marked_le_after (kc : Consumer) (sess : S) (events : List Event) :
    api.marked sess ≤ api.marked ((kc.consumeClaim api).after sess events) := by
  refine Component.after_of_invariant (P := fun now => api.marked sess ≤ api.marked now) ?_ ?_
  · exact Int.le_refl _
  intro now event _ below
  obtain kept | ⟨d, -, -, moved⟩ := marked_handle documented kc now event <;> omega

theorem marked_after {events : List Event} (member : .message d ∈ events) (succeeded : ¬ d.failed) :
    d.msg.offset < api.marked ((kc.consumeClaim api).after sess events) := by
  obtain ⟨before, later, rfl⟩ := append_of_mem member
  rw [Component.after_append]
  have stays := marked_le_after documented kc (kc.consume api ((kc.consumeClaim api).after sess before) d) later
  obtain ⟨failed, _⟩ | ⟨_, marked, _⟩ := consume_cases documented kc ((kc.consumeClaim api).after sess before) d
  · exact absurd failed succeeded
  · exact Int.lt_of_lt_of_le (by omega) stays

/-- Once the session had a chance to commit, all that is marked is committed. -/
theorem committed_concat {events : List Event} (marks : Marks api kc.manualCommit sess) :
    api.committed ((kc.consumeClaim api).after sess (events ++ [.autoCommit])) =
      api.marked ((kc.consumeClaim api).after sess (events ++ [.autoCommit])) := by
  have before : Marks api kc.manualCommit ((kc.consumeClaim api).after sess events) :=
    Component.after_of_invariant (P := Marks api kc.manualCommit) marks fun _ => marks_step documented _
  rw [Component.after_concat]
  change api.committed (if kc.manualCommit then _ else api.commit _) =
    api.marked (if kc.manualCommit then _ else api.commit _)
  split
  next manual => exact before.2 manual
  next => exact (documented.committed_commit _).trans (documented.marked_commit _).symm

end

theorem mem_delivered {d : Delivery} {events : List Event} : d ∈ delivered events ↔ .message d ∈ events := by
  unfold delivered
  rw [mem_filterMap]
  constructor
  · rintro ⟨event, member, found⟩
    cases event with
    | message other => rwa [← Option.some.inj found]
    | autoCommit => cases found
  · intro member
    exact ⟨_, member, rfl⟩

def Claim.FailsLast (claim : Claim) : Prop :=
  claim.deliveries.Pairwise fun d later => d.failed → later.failed

theorem Claim.FailsLast.before {claim : Claim} {d bad : Delivery} (last : claim.FailsLast)
    (member : d ∈ claim.deliveries) (bad_member : bad ∈ claim.deliveries) (succeeded : ¬ d.failed)
    (failed : bad.failed) : d.msg.offset < bad.msg.offset := by
  obtain ⟨before, later, split⟩ := append_of_mem bad_member
  have ordered := claim.ordered
  unfold Claim.FailsLast at last
  rw [split] at last ordered member
  rcases mem_append.mp member with earlier | rest
  · exact (pairwise_append.mp ordered).2.2 d earlier bad mem_cons_self
  · rcases mem_cons.mp rest with rfl | after
    · exact absurd failed succeeded
    · have pair := rel_of_pairwise_cons (pairwise_append.mp last).2.1 after
      exact absurd (pair failed) succeeded

/-- Failed messages are never committed exactly if none of them is followed by one that is
handled. -/
theorem keepsFailed_iff {S : Type} {api : ConsumerGroupSession S} (documented : api.Documented) (kc : Consumer)
    (claim : Claim) {sess : S} (marked : api.marked sess = claim.start) (committed : api.committed sess = claim.start) :
    KeepsFailed api sess kc claim ↔ claim.FailsLast := by
  have marks : Marks api kc.manualCommit sess := ⟨by omega, fun _ => committed.trans marked.symm⟩
  constructor
  · intro keeps
    refine pairwise_iff_forall_sublist.mpr ?_
    intro bad d pair failed
    by_contra succeeded
    have ordered := pairwise_iff_forall_sublist.mp claim.ordered pair
    have bad_member : bad ∈ claim.deliveries := pair.subset (by simp)
    have member : d ∈ claim.deliveries := pair.subset (by simp)
    -- The session commits after the last message, if that is not done by hand.
    let events := claim.deliveries.map Event.message ++ [.autoCommit]
    have all : delivered events = claim.deliveries := by
      simp [events, delivered]
    have done : d.msg.offset < api.committed ((kc.consumeClaim api).after sess events) := by
      rw [committed_concat documented marks]
      exact marked_after documented (by simpa using member) succeeded
    have := (keeps events all).last bad bad_member failed
    rw [documented.commits_iff] at this
    omega
  · intro last events all
    have start : Marks api kc.manualCommit sess ∧ ∀ d ∈ claim.deliveries, d.failed → api.marked sess ≤ d.msg.offset :=
      ⟨marks, fun d member _ => marked ▸ claim.behind d member⟩
    refine Component.Always.imp (Component.always_of_invariant (P := fun sess => Marks api kc.manualCommit sess ∧
        ∀ d ∈ claim.deliveries, d.failed → api.marked sess ≤ d.msg.offset) start ?_) ?_
    · rintro sess event member ⟨marks, below⟩
      refine ⟨marks_step documented event marks, ?_⟩
      intro bad bad_member failed
      obtain kept | ⟨d, rfl, succeeded, moved⟩ := marked_handle documented kc sess event
      · rw [kept]
        exact below bad bad_member failed
      · have delivered : d ∈ claim.deliveries := all ▸ mem_delivered.mpr member
        have := last.before delivered bad_member succeeded failed
        have := below bad bad_member failed
        omega
    · rintro sess ⟨marks, below⟩ d member failed
      have := below d member failed
      rw [documented.commits_iff]
      exact Int.not_lt.mpr (Int.le_trans marks.1 this)

structure Session where
  marked : Int
  committed : Int

/-- A session that keeps the two offsets. -/
def session : ConsumerGroupSession Session where
  markMessage sess msg := { sess with marked := max sess.marked (msg.offset + 1) }
  commit sess := { sess with committed := sess.marked }
  marked := Session.marked
  committed := Session.committed
  Commits sess msg := msg.offset < sess.committed

theorem session_documented : session.Documented where
  marked_mark _ _ := rfl
  committed_mark _ _ := rfl
  marked_commit _ := rfl
  committed_commit _ := rfl
  commits_iff _ _ := .rfl

def skipped : Claim where
  start := 0
  deliveries := [⟨⟨0, []⟩, .error "plan failed"⟩, ⟨⟨1, []⟩, .ok []⟩]
  behind := by decide
  ordered := by decide

/-- The failed message of another claim is its last one. -/
theorem keepsFailed_last :
    let claim : Claim := ⟨0, [⟨⟨0, []⟩, .ok []⟩, ⟨⟨1, []⟩, .error "plan failed"⟩], by decide, by decide⟩
    KeepsFailed session ⟨0, 0⟩ ⟨true⟩ claim :=
  (keepsFailed_iff session_documented ⟨true⟩ _ rfl rfl).mpr (by simp [Claim.FailsLast, Delivery.failed])

theorem skipped_commits : ¬ KeepsFailed session ⟨0, 0⟩ ⟨true⟩ skipped ∧ ¬ KeepsFailed session ⟨0, 0⟩ ⟨false⟩ skipped := by
  let events := skipped.deliveries.map Event.message ++ [.autoCommit]
  have first : ∃ d ∈ skipped.deliveries, d.failed ∧ d.msg.offset = 0 :=
    ⟨_, mem_cons_self, ⟨_, rfl⟩, rfl⟩
  obtain ⟨d, member, failed, offset⟩ := first
  constructor <;> intro keeps <;>
  · have committed := (keeps events rfl).last d member failed
    change ¬ d.msg.offset < _ at committed
    rw [offset] at committed
    exact committed (by decide)

end FlowRulZ.Kafka
