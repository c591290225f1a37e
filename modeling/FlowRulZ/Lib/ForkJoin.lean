import Mathlib.Data.List.Nodup
import Mathlib.Data.List.Perm.Basic
import Mathlib.Data.Set.List

/-! # Fork and join

Threads that each make one call and store its answer in a slot of their own.  A thread that
finds an error when it starts makes no call.  Between its look at the error, its call and
its write, any other thread may act: a schedule lists whose turn it is.  Calls are answered
by an oracle that sees all calls made before.
-/

namespace ForkJoin

open List

variable {κ α ε : Type}

inductive Worker (α ε : Type) where
  | spawned
  | checked
  | answered (answer : α)
  | refused (error : ε)
  | finished
  deriving Repr, DecidableEq

structure Pool (κ α ε : Type) where
  workers : List (Worker α ε)
  slots : List (Option α)
  err : Option ε := none
  log : List κ
  deriving Repr, DecidableEq

namespace Pool

def start (n : Nat) (log : List κ) : Pool κ α ε where
  workers := List.replicate n .spawned
  slots := List.replicate n none
  log := log

def move (pool : Pool κ α ε) (i : Nat) (worker : Worker α ε) : Pool κ α ε :=
  { pool with workers := pool.workers.set i worker }

/-- The next action of thread `i`, which makes the `i`-th of the calls. -/
def act (oracle : List κ → κ → Except ε α) (calls : List κ) (pool : Pool κ α ε) (i : Nat) : Pool κ α ε :=
  match pool.workers[i]?, calls[i]? with
  | some .spawned, some _ => pool.move i (if pool.err.isSome then .finished else .checked)
  | some .checked, some call =>
    match oracle pool.log call with
    | .ok answer => { pool.move i (.answered answer) with log := pool.log ++ [call] }
    | .error e => { pool.move i (.refused e) with log := pool.log ++ [call] }
  | some (.answered answer), some _ =>
    { pool.move i .finished with slots := pool.slots.set i (some answer) }
  | some (.refused e), some _ => { pool.move i .finished with err := some e }
  | _, _ => pool

def along (oracle : List κ → κ → Except ε α) (calls : List κ) (schedule : List Nat) (pool : Pool κ α ε) : Pool κ α ε :=
  schedule.foldl (act oracle calls) pool

def Joined (pool : Pool κ α ε) : Prop := ∀ worker ∈ pool.workers, worker = .finished

instance [DecidableEq α] [DecidableEq ε] (pool : Pool κ α ε) : Decidable pool.Joined :=
  inferInstanceAs (Decidable (∀ worker ∈ pool.workers, worker = .finished))

end Pool

/-- In this order of the calls, the `i`-th one is answered so. -/
def Gave (oracle : List κ → κ → Except ε α) (calls : List κ) (log : List κ) (order : List Nat)
    (i : Nat) (answer : α) : Prop :=
  ∃ before after call, order = before ++ i :: after ∧ calls[i]? = some call ∧
    oracle (log ++ before.filterMap (calls[·]?)) call = .ok answer

/-- All calls are made once, in some order, and these are their answers. -/
structure Answers (oracle : List κ → κ → Except ε α) (calls log log' : List κ) (order : List Nat)
    (answers : List α) : Prop where
  once : order.Perm (List.range calls.length)
  made : log' = log ++ order.filterMap (calls[·]?)
  length : answers.length = calls.length
  gave : ∀ i answer, answers[i]? = some answer → Gave oracle calls log order i answer

section

variable {oracle : List κ → κ → Except ε α} {calls log : List κ} {order : List Nat} {i j : Nat}
  {answer : α} {pool : Pool κ α ε}

namespace Pool

theorem act_finished (done : pool.workers[i]? = some .finished) : act oracle calls pool i = pool := by
  simp [act, done]

theorem along_thrice {call : κ} (there : calls[i]? = some call) (spawned : pool.workers[i]? = some .spawned) :
    pool.along oracle calls [i, i, i] =
      match pool.err, oracle pool.log call with
      | some _, _ => pool.move i .finished
      | none, .ok answer =>
        { pool.move i .finished with
          slots := pool.slots.set i (some answer), log := pool.log ++ [call] }
      | none, .error e =>
        { pool.move i .finished with err := some e, log := pool.log ++ [call] } := by
  have bound : i < pool.workers.length := (List.getElem?_eq_some_iff.mp spawned).1
  have first : act oracle calls pool i = pool.move i (if pool.err.isSome then .finished else .checked) := by
    simp [act, spawned, there]
  simp only [along, foldl_cons, foldl_nil, first]
  cases err : pool.err with
  | some e =>
    have done : (pool.move i .finished).workers[i]? = some .finished := by simp [move, bound]
    simp only [Option.isSome_some, if_true]
    rw [act_finished done, act_finished done]
  | none =>
    cases answered : oracle pool.log call <;>
      simp [act, move, bound, there, answered]

end Pool

theorem Gave.later (gave : Gave oracle calls log order i answer) (j : Nat) :
    Gave oracle calls log (order ++ [j]) i answer := by
  obtain ⟨before, after, call, rfl, there, answered⟩ := gave
  exact ⟨before, after ++ [j], call, by simp, there, answered⟩

theorem Gave.last {call : κ} (there : calls[i]? = some call)
    (answered : oracle (log ++ order.filterMap (calls[·]?)) call = .ok answer) :
    Gave oracle calls log (order ++ [i]) i answer :=
  ⟨order, [], call, rfl, there, answered⟩

theorem Gave.mem (gave : Gave oracle calls log order i answer) : i ∈ order := by
  obtain ⟨before, after, call, rfl, -⟩ := gave
  simp

/-- What a thread holds or stored is the answer of its call, in this order of the calls. -/
def Sound (oracle : List κ → κ → Except ε α) (calls log : List κ) (order : List Nat)
    (slots : List (Option α)) (i : Nat) : Worker α ε → Prop
  | .spawned | .checked => i ∉ order
  | .answered answer => Gave oracle calls log order i answer
  | .refused _ => False
  | .finished => ∃ answer, slots[i]? = some (some answer) ∧ Gave oracle calls log order i answer

/-- A pool in which every call so far was answered. -/
structure Linear (oracle : List κ → κ → Except ε α) (calls log : List κ) (order : List Nat)
    (pool : Pool κ α ε) : Prop where
  workers : pool.workers.length = calls.length
  slots : pool.slots.length = calls.length
  err : pool.err = none
  made : pool.log = log ++ order.filterMap (calls[·]?)
  nodup : order.Nodup
  inside : ∀ i ∈ order, i < calls.length
  sound : ∀ i worker, pool.workers[i]? = some worker →
    Sound oracle calls log order pool.slots i worker

variable {slots : List (Option α)} {worker : Worker α ε}

theorem Sound.later (apart : i ≠ j) (sound : Sound oracle calls log order slots j worker) :
    Sound oracle calls log (order ++ [i]) slots j worker := by
  cases worker with
  | spawned | checked => simpa [Sound, apart.symm] using sound
  | answered answer => exact Gave.later sound i
  | refused e => exact sound
  | finished =>
    obtain ⟨answer, stored, gave⟩ := sound
    exact ⟨answer, stored, gave.later i⟩

theorem Sound.set (apart : i ≠ j) (slot : Option α) (sound : Sound oracle calls log order slots j worker) :
    Sound oracle calls log order (slots.set i slot) j worker := by
  cases worker with
  | finished =>
    obtain ⟨answer, stored, gave⟩ := sound
    exact ⟨answer, by rwa [getElem?_set_ne apart], gave⟩
  | spawned | checked | answered | refused => exact sound

theorem Linear.sound_move {order' : List Nat} (linear : Linear oracle calls log order pool)
    (here : Sound oracle calls log order' slots i worker)
    (others : ∀ j w, i ≠ j → Sound oracle calls log order pool.slots j w → Sound oracle calls log order' slots j w) :
    ∀ j w, (pool.move i worker).workers[j]? = some w → Sound oracle calls log order' slots j w := by
  intro j w found
  by_cases same : i = j
  · subst same
    have bound : i < pool.workers.length := by
      simpa [Pool.move] using (List.getElem?_eq_some_iff.mp found).1
    obtain rfl : worker = w := by simpa [Pool.move, bound] using found
    exact here
  · apply others j w same
    apply linear.sound
    simpa [Pool.move, getElem?_set_ne same] using found

def Willing (oracle : List κ → κ → Except ε α) (calls : List κ) : Prop :=
  ∀ call ∈ calls, ∀ log, ∃ answer, oracle log call = .ok answer

theorem Linear.act (willing : Willing oracle calls) (linear : Linear oracle calls log order pool)
    (i : Nat) : ∃ order', Linear oracle calls log order' (pool.act oracle calls i) := by
  unfold Pool.act
  split
  case h_1 _ _ worker there =>
    -- the thread looks for an error and finds none
    have fresh := linear.sound i _ worker
    have err : (if pool.err.isSome then Worker.finished else Worker.checked : Worker α ε) =
        .checked := by simp [linear.err]
    refine ⟨order, { linear with workers := ?_, sound := ?_ }⟩
    · simpa [Pool.move] using linear.workers
    · rw [err]
      exact linear.sound_move fresh fun j w _ sound => sound
  case h_2 _ call worker there =>
    -- the thread makes its call
    have fresh : i ∉ order := linear.sound i _ worker
    obtain ⟨answer, answered⟩ := willing call (mem_of_getElem? there) pool.log
    rw [answered]
    rw [linear.made] at answered
    refine ⟨order ++ [i], { linear with workers := ?_, made := ?_, nodup := ?_, inside := ?_, sound := ?_ }⟩
    · simpa [Pool.move] using linear.workers
    · simp [linear.made, there]
    · simpa [nodup_append, linear.nodup] using fun j inOrder => (ne_of_mem_of_not_mem inOrder fresh)
    · intro j mem
      obtain inOrder | rfl := by simpa using mem
      · exact linear.inside j inOrder
      · exact (List.getElem?_eq_some_iff.mp there).1
    · exact linear.sound_move (Gave.last there answered) fun j w apart sound => sound.later apart
  case h_3 _ _ answer _ worker there =>
    -- the thread stores its answer
    have gave : Gave oracle calls log order i answer := linear.sound i _ worker
    have bound : i < pool.slots.length := by
      rw [linear.slots]
      exact (List.getElem?_eq_some_iff.mp there).1
    refine ⟨order, { linear with workers := ?_, slots := ?_, sound := ?_ }⟩
    · simpa [Pool.move] using linear.workers
    · simpa using linear.slots
    · refine linear.sound_move ⟨answer, by simp [bound], gave⟩ fun j w apart sound => ?_
      exact sound.set apart _
  case h_4 _ _ _ _ worker _ => exact (linear.sound i _ worker).elim
  case h_5 => exact ⟨order, linear⟩

theorem Linear.along (willing : Willing oracle calls) (schedule : List Nat) :
    ∀ (pool : Pool κ α ε) (order : List Nat), Linear oracle calls log order pool →
      ∃ order', Linear oracle calls log order' (pool.along oracle calls schedule) := by
  induction schedule with
  | nil => exact fun pool order linear => ⟨order, linear⟩
  | cons i schedule ih =>
    intro pool order linear
    obtain ⟨order', moved⟩ := linear.act willing i
    exact ih _ order' moved

theorem Linear.start (oracle : List κ → κ → Except ε α) (calls log : List κ) :
    Linear oracle calls log [] (Pool.start calls.length log) where
  workers := by simp [Pool.start]
  slots := by simp [Pool.start]
  err := rfl
  made := by simp [Pool.start]
  nodup := List.nodup_nil
  inside := by simp
  sound i worker found := by
    obtain ⟨-, rfl⟩ : i < calls.length ∧ .spawned = worker := by
      simpa [Pool.start, getElem?_replicate] using found
    simp [Sound]

theorem Linear.joined (linear : Linear oracle calls log order pool) (joined : pool.Joined) :
    ∃ answers, pool.slots = answers.map some ∧ Answers oracle calls log pool.log order answers := by
  have stored : ∀ i < calls.length, ∃ answer, pool.slots[i]? = some (some answer) ∧
      Gave oracle calls log order i answer := by
    intro i small
    obtain ⟨worker, found⟩ : ∃ worker, pool.workers[i]? = some worker :=
      ⟨_, getElem?_eq_getElem (linear.workers ▸ small)⟩
    obtain rfl := joined worker (mem_of_getElem? found)
    exact linear.sound i _ found
  obtain ⟨answers, filled⟩ : pool.slots ∈ Set.range (List.map (some : α → Option α)) := by
    rw [Set.range_list_map]
    intro slot there
    obtain ⟨i, found⟩ := mem_iff_getElem?.mp there
    obtain ⟨answer, same, -⟩ := stored i (linear.slots ▸ (List.getElem?_eq_some_iff.mp found).1)
    exact ⟨answer, Option.some.inj (same.symm.trans found)⟩
  have length : answers.length = calls.length := by
    rw [← linear.slots, ← filled, length_map]
  refine ⟨answers, filled.symm, ?_, linear.made, length, ?_⟩
  · rw [perm_ext_iff_of_nodup linear.nodup nodup_range]
    intro i
    rw [mem_range]
    refine ⟨linear.inside i, fun small => ?_⟩
    obtain ⟨answer, -, gave⟩ := stored i small
    exact gave.mem
  · intro i answer found
    obtain ⟨answer', same, gave⟩ := stored i (length ▸ (List.getElem?_eq_some_iff.mp found).1)
    rw [← filled, getElem?_map, found] at same
    obtain rfl : answer = answer' := by simpa using same
    exact gave

/-- Whatever the schedule, the calls are made in some order and the slots hold their answers. -/
theorem along_answers (willing : Willing oracle calls) {schedule : List Nat}
    (joined : ((Pool.start calls.length log).along oracle calls schedule).Joined) :
    ((Pool.start calls.length log).along oracle calls schedule).err = none ∧ ∃ order answers,
        ((Pool.start calls.length log).along oracle calls schedule).slots = answers.map some ∧
        Answers oracle calls log ((Pool.start calls.length log).along oracle calls schedule).log order answers := by
  obtain ⟨order, linear⟩ := Linear.along willing schedule _ [] (Linear.start oracle calls log)
  obtain ⟨answers, filled, given⟩ := linear.joined joined
  exact ⟨linear.err, order, answers, filled, given⟩

end

end ForkJoin
