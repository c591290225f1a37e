import FlowRulZ.Lib.Table
import FlowRulZ.Reliability.DeadLetters
import FlowRulZ.Reliability.Dedup

/-! # Incoming messages

`handleIncomingMessage` marks a message in the dedup tracker, then executes the plans on it.
If that fails, the message goes to the dead letter queue, and its key stays marked.  The
execution itself is outside: what it returns is an input, and deliveries overlap in any way.
-/

namespace FlowRulZ.Incoming

open List Component

open DeadLetters Dedup

/-- The FNV-1a hash of 128 bits. -/
def fnv128a (body : Bytes) : BitVec 128 :=
  body.foldl (fun h c => (h ^^^ c.toBitVec.setWidth 128) * BitVec.ofNat 128 (2 ^ 88 + 0x13b))
    0x6c62272e07bb014262b821756295c58d#128

/-- `common.HashBody`, 32 hexadecimal digits. -/
def hashBody (body : Bytes) : String :=
  .ofList ((List.range 32).reverse.map fun i => ((fnv128a body).toNat / 16 ^ i % 16).digitChar)

def hashBodyPrefixed (domain : String) (body : Bytes) : String := s!"{domain}-{hashBody body}"

/-- A message that is executed, and what the execution returned, if it has. -/
structure Delivery where
  body : Bytes
  result : Option (Except String Bytes) := none
  deriving Repr, DecidableEq

/-- The parts of a node that see a message, and the executions so far. -/
structure Ingress where
  dedup : DedupTracker
  dlq : DLQ
  deliveries : List Delivery := []

inductive Op where
  | arrive (now : Nat) (admitted : Bool) (msg : Bytes)
  /-- `SubmitAndWait` returns, for one of the executions. -/
  | finish (i : Nat) (result : Except String Bytes)
  | cleanup (now : Nat)
  deriving Repr, DecidableEq

inductive Output where
  | limited (msg : Bytes)
  | skipped (msg : Bytes)
  | started (msg : Bytes)
  | returned (msg : Bytes) (result : Except String Bytes)
  deriving Repr, DecidableEq

/-- `handleIncomingMessage` up to the execution. -/
def arrive (now : Nat) (admitted : Bool) (msg : Bytes) (s : Ingress) : Ingress × List Output :=
  if !admitted then
    let entry : DeadLetterEntry := { id := hashBodyPrefixed "rl" msg, body := msg, error := "rate limited" }
    ({ s with dlq := (s.dlq.sendNew entry).1 }, [.limited msg])
  else
    let (dedup, seen) := s.dedup.checkAndMark now (hashBody msg)
    if seen then ({ s with dedup }, [.skipped msg])
    else ({ s with dedup, deliveries := s.deliveries ++ [⟨msg, none⟩] }, [.started msg])

/-- `handleIncomingMessage` after the execution. -/
def finish (i : Nat) (result : Except String Bytes) (s : Ingress) : Ingress × List Output :=
  match s.deliveries[i]? with
  | some ⟨msg, none⟩ =>
    let s := { s with deliveries := s.deliveries.set i ⟨msg, some result⟩ }
    match result with
    | .ok _ => (s, [.returned msg result])
    | .error e =>
      let entry : DeadLetterEntry := { id := hashBody msg, body := msg, error := e }
      ({ s with dlq := (s.dlq.sendNew entry).1 }, [.returned msg result])
  -- nothing is executed under this number
  | _ => (s, [])

def ingress : Component Ingress Op Output where
  handle s op :=
    match op with
    | .arrive now admitted msg => arrive now admitted msg s
    | .finish i result => finish i result s
    | .cleanup now => ({ s with dedup := s.dedup.cleanup now }, [])

def start (maxSize ttl : Int) (dlq : DLQ) : Ingress := { dedup := newDedupTracker maxSize ttl, dlq }

def Retained (key : String) (s : Ingress) : Prop := s.dedup.seen key = true

instance (key : String) (s : Ingress) : Decidable (Retained key s) :=
  inferInstanceAs (Decidable (s.dedup.seen key = true))

/-- An identical body is being executed, or was executed successfully and its key was retained ever since. -/
def Excused (s : Ingress) (before : List Op) (msg : Bytes) : Prop :=
  ⟨msg, none⟩ ∈ (ingress.after s before).deliveries ∨
    ∃ earlier i out later, before = earlier ++ Op.finish i (.ok out) :: later ∧
      (ingress.after s earlier).deliveries[i]? = some ⟨msg, none⟩ ∧
      ingress.Always (Retained (hashBody msg)) (ingress.after s (earlier ++ [Op.finish i (.ok out)])) later

/-- Every message that is admitted is executed, unless it is a duplicate; one that failed is none. -/
def Retriable (s : Ingress) (ops : List Op) : Prop :=
  ∀ before now msg later, ops = before ++ Op.arrive now true msg :: later →
    (ingress.handle (ingress.after s before) (.arrive now true msg)).2 = [.started msg] ∨ Excused s before msg

/-- While a key is retained, a message is not delivered again after it failed, nor another message with that key. -/
def Careful (s : Ingress) : Op → Prop
  | .arrive _ true msg => Retained (hashBody msg) s →
      ∀ delivery, (s.deliveries.filter (hashBody ·.body = hashBody msg)).getLast? = some delivery →
        delivery.body = msg ∧ ∀ e, delivery.result ≠ some (.error e)
  | _ => True

section

variable {s : Ingress} {op : Op} {key : String} {i j : Nat} {msg : Bytes} {delivery : Delivery}

def Starts (s : Ingress) (key : String) (op : Op) : Prop :=
  ∃ now msg, op = .arrive now true msg ∧ hashBody msg = key ∧ s.dedup.seen key = false

section

variable (s : Ingress)

theorem handle_arrive (now : Nat) (admitted : Bool) (msg : Bytes) :
    ingress.handle s (.arrive now admitted msg) = arrive now admitted msg s := rfl

theorem handle_finish (i : Nat) (result : Except String Bytes) :
    ingress.handle s (.finish i result) = finish i result s := rfl

theorem dedup_limited (now : Nat) (msg : Bytes) : (arrive now false msg s).1.dedup = s.dedup := by
  simp [arrive]

theorem deliveries_limited (now : Nat) (msg : Bytes) : (arrive now false msg s).1.deliveries = s.deliveries := by
  simp [arrive]

/-- An admitted message is skipped if its key is retained, and executed if not. -/
theorem arrive_admitted (now : Nat) (msg : Bytes) : (s.dedup.seen (hashBody msg) = true ∧ arrive now true msg s =
          ({ s with dedup := (s.dedup.checkAndMark now (hashBody msg)).1 }, [.skipped msg])) ∨
      (s.dedup.seen (hashBody msg) = false ∧ arrive now true msg s =
          ({ s with dedup := (s.dedup.checkAndMark now (hashBody msg)).1
                    deliveries := s.deliveries ++ [⟨msg, none⟩] }, [.started msg])) := by
  have flag := s.dedup.checkAndMark_seen now (hashBody msg)
  cases there : s.dedup.seen (hashBody msg) with
  | true => exact .inl ⟨rfl, by simp [arrive, flag, there]⟩
  | false => exact .inr ⟨rfl, by simp [arrive, flag, there]⟩

theorem finish_cases (i : Nat) (result : Except String Bytes) :
    (finish i result s).1.dedup = s.dedup ∧ ((∃ msg, s.deliveries[i]? = some ⟨msg, none⟩ ∧
          (finish i result s).1.deliveries = s.deliveries.set i ⟨msg, some result⟩) ∨
        (finish i result s).1 = s) := by
  unfold finish
  split
  · rename_i msg running
    cases result with
    | ok out => exact ⟨rfl, .inl ⟨msg, running, rfl⟩⟩
    | error e => exact ⟨rfl, .inl ⟨msg, running, rfl⟩⟩
  · exact ⟨rfl, .inr rfl⟩

end

/-- A key in the tracker was there before, or an execution has just marked it. -/
theorem retained_handle (retained : Retained key (ingress.handle s op).1) : Retained key s ∨ Starts s key op := by
  cases op with
  | arrive now admitted msg =>
    cases admitted with
    | false =>
      exact .inl retained
    | true =>
      have others := (s.dedup.seen_checkAndMark now (hashBody msg)).2 key
      rcases arrive_admitted s now msg with ⟨there, arrived⟩ | ⟨unseen, arrived⟩
      · simp only [handle_arrive, arrived] at retained
        rcases others retained with before | rfl
        · exact .inl before
        · exact .inl there
      · simp only [handle_arrive, arrived] at retained
        rcases others retained with before | rfl
        · exact .inl before
        · exact .inr ⟨now, msg, rfl, rfl, unseen⟩
  | finish i result =>
    refine .inl ?_
    simpa only [handle_finish, Retained, (finish_cases s i result).1] using retained
  | cleanup now => exact .inl (DedupTracker.seen_cleanup retained)

theorem delivery_handle (op : Op) (there : s.deliveries[i]? = some delivery) :
    (ingress.handle s op).1.deliveries[i]? = some delivery ∨ ∃ result, op = .finish i result ∧ delivery.result = none ∧
        (ingress.handle s op).1.deliveries[i]? = some ⟨delivery.body, some result⟩ := by
  cases op with
  | arrive now admitted msg =>
    refine .inl ?_
    cases admitted with
    | false => rwa [handle_arrive, deliveries_limited]
    | true =>
      rcases arrive_admitted s now msg with ⟨-, arrived⟩ | ⟨-, arrived⟩ <;> simp only [handle_arrive, arrived]
      · exact there
      · exact Table.append_left there
  | finish j result =>
    rcases (finish_cases s j result).2 with ⟨msg, running, set⟩ | same
    · simp only [handle_finish, set]
      rcases Table.after_set running there with ⟨rfl, rfl, now⟩ | ⟨-, now⟩
      · exact .inr ⟨result, rfl, rfl, now _⟩
      · exact .inl (now _)
    · exact .inl (by simp only [handle_finish, same]; exact there)
  | cleanup now => exact .inl there

theorem delivery_handle_inv (there : (ingress.handle s op).1.deliveries[i]? = some delivery) :
    (∃ before, s.deliveries[i]? = some before ∧ before.body = delivery.body) ∨
      Starts s (hashBody delivery.body) op := by
  cases op with
  | arrive now admitted msg =>
    cases admitted with
    | false =>
      exact .inl ⟨delivery, there, rfl⟩
    | true =>
      rcases arrive_admitted s now msg with ⟨-, arrived⟩ | ⟨unseen, arrived⟩ <;>
        simp only [handle_arrive, arrived] at there
      · exact .inl ⟨delivery, there, rfl⟩
      · rcases Table.of_concat there with old | ⟨-, rfl⟩
        · exact .inl ⟨delivery, old, rfl⟩
        · exact .inr ⟨now, msg, rfl, rfl, unseen⟩
  | finish j result =>
    refine .inl ?_
    rcases (finish_cases s j result).2 with ⟨msg, running, set⟩ | same
    · simp only [handle_finish, set] at there
      rcases Table.of_set there with ⟨rfl, rfl⟩ | ⟨-, old⟩
      · exact ⟨_, running, rfl⟩
      · exact ⟨delivery, old, rfl⟩
    · simp only [handle_finish, same] at there
      exact ⟨delivery, there, rfl⟩
  | cleanup now => exact .inl ⟨delivery, there, rfl⟩

/-- An execution is still running, or there is a step in which it returned. -/
theorem delivery_along (ops : List Op) (running : s.deliveries[i]? = some ⟨msg, none⟩) :
    (ingress.after s ops).deliveries[i]? = some ⟨msg, none⟩ ∨
      ∃ earlier result later, ops = earlier ++ Op.finish i result :: later ∧
        (ingress.after s earlier).deliveries[i]? = some ⟨msg, none⟩ ∧
        (ingress.after s ops).deliveries[i]? = some ⟨msg, some result⟩ := by
  induction ops using List.reverseRecOn with
  | nil => exact .inl running
  | append_singleton ops op ih =>
    rw [after_concat]
    rcases ih with still | ⟨earlier, result, later, rfl, before, returned⟩
    · rcases delivery_handle op still with same | ⟨result, rfl, -, returned⟩
      · exact .inl same
      · exact .inr ⟨ops, result, [], rfl, still, returned⟩
    · rcases delivery_handle op returned with same | ⟨_, -, impossible, -⟩
      · exact .inr ⟨earlier, result, later ++ [op], by simp, before, same⟩
      · cases impossible

/-- The execution that marked a key, and has been the last one for it since. -/
structure Marked (s : Ingress) (ops : List Op) (key : String) (earlier : List Op) (now : Nat)
    (msg : Bytes) (later : List Op) : Prop where
  split : ops = earlier ++ Op.arrive now true msg :: later
  own : hashBody msg = key
  unseen : (ingress.after s earlier).dedup.seen key = false
  retained : ingress.Always (Retained key) (ingress.after s (earlier ++ [Op.arrive now true msg])) later
  last : ∀ j delivery, (ingress.after s earlier).deliveries.length < j →
    (ingress.after s ops).deliveries[j]? = some delivery → hashBody delivery.body ≠ key

/-- A key that is retained was marked by an execution, and retained ever since. -/
theorem marked_of_retained {s : Ingress} (fresh : ∀ key, ¬ Retained key s) (ops : List Op) {key : String}
    (retained : Retained key (ingress.after s ops)) :
    ∃ earlier now msg later, Marked s ops key earlier now msg later := by
  induction ops using List.reverseRecOn with
  | nil => exact absurd retained (fresh key)
  | append_singleton ops op ih =>
    rw [after_concat] at retained
    by_cases before : Retained key (ingress.after s ops)
    · obtain ⟨earlier, now, msg, later, marked⟩ := ih before
      refine ⟨earlier, now, msg, later ++ [op], ?_, marked.own, marked.unseen, ?_, ?_⟩
      · simp [marked.split]
      · rw [always_concat]
        refine ⟨marked.retained, ?_⟩
        have whole : ops ++ [op] = earlier ++ [Op.arrive now true msg] ++ (later ++ [op]) := by
          simp [marked.split]
        rw [← after_append, ← whole, after_concat]
        exact retained
      · intro j delivery beyond there
        rw [after_concat] at there
        rcases delivery_handle_inv there with ⟨old, was, same⟩ | ⟨_, _, -, -, unseen⟩
        · rw [← same]
          exact marked.last j old beyond was
        · intro own
          rw [own] at unseen
          exact absurd before (by simp [Retained, unseen])
    · obtain ⟨now, msg, rfl, own, unseen⟩ := (retained_handle retained).resolve_left before
      refine ⟨ops, now, msg, [], rfl, own, unseen, ?_, ?_⟩
      · rw [after_concat]
        exact retained
      · intro j delivery beyond there
        subst own
        have started := (arrive_admitted (ingress.after s ops) now msg).resolve_left (by simp [unseen])
        rw [after_concat, handle_arrive, started.2] at there
        obtain ⟨inside, -⟩ := List.getElem?_eq_some_iff.mp there
        rw [length_append, length_singleton] at inside
        omega

theorem getLast?_filter {α : Type*} {p : α → Bool} {a : α} (l : List α) :
    ∀ i : Nat, l[i]? = some a → p a = true → (∀ (j : Nat) b, i < j → l[j]? = some b → p b = false) →
      (l.filter p).getLast? = some a := by
  induction l with
  | nil =>
    intro i there
    simp at there
  | cons x l ih =>
    intro i there good last
    cases i with
    | zero =>
      have rest : l.filter p = [] := by
        rw [filter_eq_nil_iff]
        intro b member
        obtain ⟨k, found⟩ := mem_iff_getElem?.mp member
        simp [last (k + 1) b (by omega) found]
      cases there
      rw [filter_cons_of_pos good, rest]
      rfl
    | succ i =>
      have later := ih i there good fun j b beyond found => last (j + 1) b (by omega) found
      rw [filter_cons]
      split
      · rw [getLast?_cons, later]
        rfl
      · exact later

theorem Marked.started {ops earlier later : List Op} {now : Nat} (marked : Marked s ops key earlier now msg later) :
    (ingress.after s (earlier ++ [Op.arrive now true msg])).deliveries[
      (ingress.after s earlier).deliveries.length]? = some ⟨msg, none⟩ := by
  have unseen := marked.unseen
  rw [← marked.own] at unseen
  have started := (arrive_admitted (ingress.after s earlier) now msg).resolve_left (by simp [unseen])
  rw [after_concat, handle_arrive, started.2]
  simp

theorem Marked.excused {ops earlier later : List Op} {now : Nat} {again : Bytes}
    (marked : Marked s ops (hashBody again) earlier now msg later)
    (fine : ∀ delivery, ((ingress.after s ops).deliveries.filter
      (hashBody ·.body = hashBody again)).getLast? = some delivery →
        delivery.body = again ∧ ∀ e, delivery.result ≠ some (.error e)) :
    Excused s ops again := by
  have whole : ops = earlier ++ [Op.arrive now true msg] ++ later := by simp [marked.split]
  have last : ∀ result, (ingress.after s ops).deliveries[(ingress.after s earlier).deliveries.length]? =
      some ⟨msg, result⟩ → msg = again ∧ ∀ e, result ≠ some (.error e) := by
    intro result there
    refine fine ⟨msg, result⟩ (getLast?_filter _ _ there (by simp [marked.own]) ?_)
    intro j delivery beyond found
    simpa using marked.last j delivery beyond found
  have along := delivery_along later marked.started
  rw [← after_append, ← whole] at along
  rcases along with running | ⟨until_, result, since, rfl, before, returned⟩
  · obtain ⟨rfl, -⟩ := last none running
    exact .inl (mem_of_getElem? running)
  · obtain ⟨rfl, unfailed⟩ := last _ returned
    cases result with
    | error e => exact absurd rfl (unfailed e)
    | ok out =>
      refine .inr ⟨earlier ++ [Op.arrive now true msg] ++ until_,
        (ingress.after s earlier).deliveries.length, out, since, whole.trans (by simp), ?_, ?_⟩
      · rw [after_append]
        exact before
      · have retained := (always_append.mp marked.retained).2.2
        rw [after_concat, after_append]
        exact retained

/-- If no message is delivered again, while its key is retained, after it failed or after another message with that key,
then every message that is no duplicate is executed. -/
theorem retriable_of_careful (maxSize ttl : Int) (dlq : DLQ) (ops : List Op)
    (careful : ingress.Throughout Careful (start maxSize ttl dlq) ops) :
    Retriable (start maxSize ttl dlq) ops := by
  have fresh : ∀ key, ¬ Retained key (start maxSize ttl dlq) := by
    intro key
    simp only [Retained, start, newDedupTracker, DedupTracker.seen]
    split <;> simp
  rintro before now msg later rfl
  have gentle := throughout_split ingress careful
  rcases arrive_admitted (ingress.after (start maxSize ttl dlq) before) now msg with ⟨there, -⟩ | ⟨-, arrived⟩
  · refine .inr ?_
    obtain ⟨earlier, at_, first, rest, marked⟩ := marked_of_retained fresh before there
    exact marked.excused (gentle there)
  · exact .inl (by simp only [handle_arrive, arrived])

end

def forgetful : Ingress := start 100 10 (newDLQ 100 none "")

/-- A message that succeeded is skipped, and one that failed is executed again once its key is forgotten. -/
theorem retriable_forgotten :
    let ops : List Op := [.arrive 0 true [1], .finish 0 (.ok [2]), .arrive 1 true [1], .arrive 2 true [7],
      .finish 1 (.error "down"), .cleanup 20, .arrive 21 true [7]]
    Retriable forgetful ops ∧
      (ingress.run forgetful ops).2 = [.started [1], .returned [1] (.ok [2]), .skipped [1], .started [7],
        .returned [7] (.error "down"), .started [7]] := by
  refine ⟨retriable_of_careful 100 10 (newDLQ 100 none "") _ ?_, by decide +kernel⟩
  refine ⟨?_, trivial, ?_, ?_, trivial, trivial, ?_, trivial⟩ <;> intro retained
  · exact absurd retained (by decide +kernel)
  · intro delivery found
    have last : (([⟨[1], some (.ok [2])⟩] : List Delivery).filter (hashBody ·.body = hashBody [1])).getLast? =
        some ⟨[1], some (.ok [2])⟩ := by decide +kernel
    cases last.symm.trans found
    simp
  · exact absurd retained (by decide +kernel)
  · exact absurd retained (by decide +kernel)

/-- A message that failed is skipped when it is delivered again. -/
theorem failed_message_skipped :
    let ops : List Op := [.arrive 0 true [7], .finish 0 (.error "down"), .arrive 1 true [7]]
    (ingress.run forgetful ops).2 = [.started [7], .returned [7] (.error "down"), .skipped [7]] ∧
      ids (ingress.after forgetful ops).dlq = [hashBody [7]] ∧
      ¬ Retriable forgetful ops := by
  refine ⟨by decide +kernel, by decide +kernel, ?_⟩
  intro retriable
  rcases retriable [.arrive 0 true [7], .finish 0 (.error "down")] 1 [7] [] rfl with
    started | running | ⟨earlier, i, out, later, split, -, -⟩
  · exact absurd started (by decide +kernel)
  · exact absurd running (by decide +kernel)
  · -- nothing has returned successfully
    have there : Op.finish i (.ok out) ∈ [Op.arrive 0 true [7], .finish 0 (.error "down")] := by simp [split]
    simp at there

end FlowRulZ.Incoming
