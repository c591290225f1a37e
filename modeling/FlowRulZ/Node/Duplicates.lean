import FlowRulZ.Node.Ingress
import FlowRulZ.Reliability.Recency

/-! # Duplicates

The dedup tracker keeps a message from being executed again as long as it retains the key.  It gives a key up
only in a cleanup pass, or for others that need the room.
-/

namespace FlowRulZ.Incoming

open List

open DeadLetters Dedup

/-- What an operation does to the keys that are retained. -/
def Op.marks (ttl : Nat) : Op → List (Lru.Op String Nat)
  | .arrive now true msg => [.use (hashBody msg) now]
  | .cleanup now => [.forget fun timestamp => ttl < now - timestamp]
  | _ => []

section

variable (maxSize ttl : Int) (dlq : DLQ)

theorem standsFor_ingress (ops : List Op) : let fresh := newDedupTracker maxSize ttl
    StandsFor fresh.maxSize fresh.ttl (ingress.after (start maxSize ttl dlq) ops).dedup
      ((Lru.set fresh.maxSize).after [] (ops.flatMap (Op.marks fresh.ttl))) := by
  intro fresh
  induction ops using List.reverseRecOn with
  | nil => exact standsFor_after maxSize ttl []
  | append_singleton ops op ih =>
    rw [Component.after_concat, flatMap_append, flatMap_singleton, Component.after_append]
    generalize ingress.after _ ops = s at ih ⊢
    cases op with
    | arrive now admitted msg =>
      cases admitted with
      | false => exact ih
      | true =>
        have marked := ih.markLocked now (hashBody msg)
        rw [← checkAndMark_eq] at marked
        rcases arrive_admitted s now msg with ⟨-, arrived⟩ | ⟨-, arrived⟩ <;>
          rw [handle_arrive, arrived] <;> exact marked
    | finish i result =>
      rw [handle_finish, (finish_cases s i result).1]
      exact ih
    | cleanup now =>
      obtain ⟨⟨entries, views, kept⟩, sized, timed⟩ := ih
      refine ⟨⟨_, views_cleanup views now, ?_⟩, sized, timed⟩
      rw [stamps_filter, kept, timed]
      rfl

/-- A message is executed although its key was delivered before only if since then a cleanup pass has met the key too
late after its last delivery, or as many other keys were delivered as there is room for. -/
theorem executed_again_gone (before between : List Op) (now later : Nat) (msg again : Bytes)
    (same : hashBody again = hashBody msg)
    (executed : (ingress.handle (ingress.after (start maxSize ttl dlq) (before ++ .arrive now true msg :: between))
      (.arrive later true again)).2 = [.started again]) :
    let fresh := newDedupTracker maxSize ttl
    Lru.Gone fresh.maxSize (hashBody msg) now (between.flatMap (Op.marks fresh.ttl)) := by
  intro fresh
  have stands := standsFor_ingress maxSize ttl dlq (before ++ .arrive now true msg :: between)
  have unseen := (arrive_admitted _ later again).resolve_left fun seen => by
    rw [handle_arrive, seen.2] at executed
    cases executed
  have flag := (DedupTracker.checkAndMark_seen _ later (hashBody again)).trans unseen.1
  rw [stands.checkAndMark, same, flatMap_append, flatMap_cons, Component.after_append] at flag
  generalize Component.after _ [] _ = kept at flag
  have uncleared : .clear ∉ between.flatMap (Op.marks fresh.ttl) := by
    intro listed
    obtain ⟨op, -, clear⟩ := mem_flatMap.mp listed
    unfold Op.marks at clear
    split at clear <;> simp at clear
  exact (Lru.behind_or_gone kept _ uncleared).resolve_right fun behind => flag behind.mem

end

theorem executed_again_gone_full : Lru.Gone 1 (hashBody [1]) 0 [.use (hashBody [2]) 1] :=
  executed_again_gone 1 10 (newDLQ 100 none "") [] [.arrive 1 true [2]] 0 2 [1] [1] rfl (by decide +kernel)

end FlowRulZ.Incoming
