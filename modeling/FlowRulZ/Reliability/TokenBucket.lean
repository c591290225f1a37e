import FlowRulZ.Lib.Allowance
import FlowRulZ.Reliability.CircuitBreaker
import Mathlib.Algebra.Order.Ring.Rat
import Mathlib.Data.Rat.Cast.Order

/-! # The token bucket

`TokenBucket` admits calls as long as there are tokens; they come back at a rate, up to the
burst.  The floating point numbers of the source are exact rationals here.  Each call holds the
lock from its start to its end.  Times are readings of the clock in nanoseconds.
-/

namespace FlowRulZ.Reliability

structure TokenBucket where
  rate : ℚ
  burst : Int
  tokens : ℚ
  lastRefill : Int
  deriving Repr, DecidableEq

def newTokenBucket (rate : ℚ) (burst now : Int) : TokenBucket where
  rate := rate
  burst := burst
  tokens := burst
  lastRefill := now

/-- `Duration.Seconds`. -/
def seconds (d : Int) : ℚ := d / 1000000000

namespace TokenBucket

variable (tb : TokenBucket)

def refill (now : Int) : TokenBucket :=
  let elapsed := seconds (since now tb.lastRefill)
  let tokens := tb.tokens + elapsed * tb.rate
  { tb with
    lastRefill := now
    tokens := if tb.burst < tokens then tb.burst else tokens }

def allowN (now n : Int) : TokenBucket × Bool :=
  let tb := tb.refill now
  if n ≤ tb.tokens then ({ tb with tokens := tb.tokens - n }, true) else (tb, false)

def allow (now : Int) : TokenBucket × Bool := tb.allowN now 1

end TokenBucket

structure AllowN where
  now : Int
  n : Int
  deriving Repr, DecidableEq

/-- A bucket as a component; the outputs are the calls with their answers. -/
def bucket : Component TokenBucket AllowN (AllowN × Bool) where
  handle tb call := ((tb.allowN call.now call.n).1, [(call, (tb.allowN call.now call.n).2)])

/-- The total of the calls that are admitted between two times, both included. -/
def admitted (s t : Int) (answers : List (AllowN × Bool)) : Int :=
  ((answers.filter fun answer => answer.2 ∧ s ≤ answer.1.now ∧ answer.1.now ≤ t).map (·.1.n)).sum

def draws (answers : List (AllowN × Bool)) : List (ℚ × ℚ) :=
  answers.map fun answer => (seconds answer.1.now, if answer.2 then (answer.1.n : ℚ) else 0)

theorem seconds_le {d e : Int} : seconds d ≤ seconds e ↔ d ≤ e := by
  rw [seconds, seconds, div_le_div_iff_of_pos_right (by norm_num), Int.cast_le]

theorem seconds_sub (d e : Int) : seconds (d - e) = seconds d - seconds e := by
  simp only [seconds, Int.cast_sub, sub_div]

theorem since_of_le {now t : Int} (later : t ≤ now) : 0 ≤ since now t ∧ since now t ≤ now - t := by
  have least : Int64.minValue.toInt = -2 ^ 63 := rfl
  have most : Int64.maxValue.toInt = 2 ^ 63 - 1 := rfl
  unfold since
  omega

structure Filled (rate : ℚ) (burst : Int) (tb : TokenBucket) : Prop where
  rate_eq : tb.rate = rate
  burst_eq : tb.burst = burst
  tokens_nonneg : 0 ≤ tb.tokens
  tokens_le : tb.tokens ≤ burst

section

variable {rate : ℚ} {burst now n : Int} {tb : TokenBucket}

section

variable (filled : Filled rate burst tb) (rate_nonneg : 0 ≤ rate) (burst_nonneg : 0 ≤ burst) (later : tb.lastRefill ≤ now)
include filled rate_nonneg burst_nonneg later

theorem refill_filled : Filled rate burst (tb.refill now) ∧
      (tb.refill now).tokens ≤ tb.tokens + rate * (seconds now - seconds tb.lastRefill) := by
  obtain ⟨rfl, rfl, tokens_nonneg, tokens_le⟩ := filled
  obtain ⟨elapsed_nonneg, elapsed_le⟩ := since_of_le later
  have start : 0 ≤ seconds (since now tb.lastRefill) := by
    rw [show (0 : ℚ) = seconds 0 by simp [seconds]]
    exact seconds_le.mpr elapsed_nonneg
  have grown : seconds (since now tb.lastRefill) * tb.rate ≤ tb.rate * (seconds now - seconds tb.lastRefill) := by
    rw [mul_comm, ← seconds_sub]
    exact mul_le_mul_of_nonneg_left (seconds_le.mpr elapsed_le) rate_nonneg
  have more := mul_nonneg start rate_nonneg
  have whole : (0 : ℚ) ≤ tb.burst := Int.cast_nonneg burst_nonneg
  simp only [TokenBucket.refill]
  split_ifs with full
  · exact ⟨⟨rfl, rfl, whole, le_refl _⟩, by linarith⟩
  · exact ⟨⟨rfl, rfl, by linarith, not_lt.mp full⟩, by linarith⟩

/-- What is left and what is admitted were there, or have come since. -/
theorem allowN_draw (n_nonneg : 0 ≤ n) : Filled rate burst (tb.allowN now n).1 ∧
      Allowance.Draw rate burst tb.tokens (seconds tb.lastRefill) (seconds now)
        (if (tb.allowN now n).2 then (n : ℚ) else 0) (tb.allowN now n).1.tokens := by
  obtain ⟨full, grown⟩ := refill_filled filled rate_nonneg burst_nonneg later
  have amount : (0 : ℚ) ≤ n := Int.cast_nonneg n_nonneg
  have tokens_le := full.tokens_le
  unfold TokenBucket.allowN
  by_cases enough : n ≤ (tb.refill now).tokens
  · have left := sub_nonneg.mpr enough
    simp only [enough, if_true]
    refine ⟨⟨full.rate_eq, full.burst_eq, left, by linarith⟩, seconds_le.mpr later, ?_, ?_, amount, left⟩
    · simpa using grown
    · simpa using tokens_le
  · simp only [enough]
    refine ⟨full, seconds_le.mpr later, ?_, ?_, le_refl _, full.tokens_nonneg⟩
    · simpa using grown
    · simpa using tokens_le

end

end

section

variable {rate : ℚ} {burst : Int} {tb : TokenBucket} {calls : List AllowN}

theorem run_draws (filled : Filled rate burst tb) (rate_nonneg : 0 ≤ rate) (burst_nonneg : 0 ≤ burst)
    (later : ∀ call ∈ calls, tb.lastRefill ≤ call.now) (ordered : calls.Pairwise (·.now ≤ ·.now))
    (nonneg : ∀ call ∈ calls, 0 ≤ call.n) :
    bucket.Always (Filled rate burst) tb calls ∧
      Allowance.Draws rate burst tb.tokens (seconds tb.lastRefill) (draws (bucket.run tb calls).2) := by
  induction calls generalizing tb with
  | nil => exact ⟨filled, .nil⟩
  | cons call calls ih =>
    rw [List.forall_mem_cons] at later nonneg
    rw [List.pairwise_cons] at ordered
    obtain ⟨kept, draw⟩ := allowN_draw filled rate_nonneg burst_nonneg later.1 nonneg.1
    have refilled : (tb.allowN call.now call.n).1.lastRefill = call.now := by
      simp only [TokenBucket.allowN]
      split <;> rfl
    obtain ⟨always, onward⟩ := ih kept (by simpa only [refilled] using ordered.1) ordered.2 nonneg.2
    rw [refilled] at onward
    exact ⟨⟨filled, always⟩, .cons draw onward⟩

theorem cast_admitted (s t : Int) (answers : List (AllowN × Bool)) :
    (admitted s t answers : ℚ) = Allowance.drawn (seconds s) (seconds t) (draws answers) := by
  induction answers with
  | nil => simp [admitted, draws, Allowance.drawn]
  | cons answer answers ih =>
    obtain ⟨call, ok⟩ := answer
    rw [draws, List.map_cons, Allowance.drawn_cons, ← draws, ← ih]
    simp only [seconds_le, admitted]
    by_cases inside : s ≤ call.now ∧ call.now ≤ t <;> cases ok <;> simp [inside]

end

/-- The tokens stay between nothing and the burst, and what is admitted in a window is at most the
burst and what comes back in it. -/
theorem allowN_window {rate : ℚ} {burst : Int} (rate_nonneg : 0 ≤ rate) (burst_nonneg : 0 ≤ burst) (created : Int)
    (calls : List AllowN) (later : ∀ call ∈ calls, created ≤ call.now) (ordered : calls.Pairwise (·.now ≤ ·.now))
    (nonneg : ∀ call ∈ calls, 0 ≤ call.n) :
    bucket.Always (fun tb => 0 ≤ tb.tokens ∧ tb.tokens ≤ burst) (newTokenBucket rate burst created) calls ∧
      ∀ s t, s ≤ t → admitted s t (bucket.run (newTokenBucket rate burst created) calls).2 ≤
        burst + rate * seconds (t - s) := by
  have whole : (0 : ℚ) ≤ burst := Int.cast_nonneg burst_nonneg
  have start : Filled rate burst (newTokenBucket rate burst created) := ⟨rfl, rfl, whole, le_refl _⟩
  obtain ⟨always, drawn⟩ := run_draws start rate_nonneg burst_nonneg later ordered nonneg
  refine ⟨always.imp fun tb filled => ⟨filled.tokens_nonneg, filled.tokens_le⟩, ?_⟩
  intro s t window
  rw [cast_admitted, seconds_sub]
  exact drawn.drawn_window rate_nonneg whole (seconds_le.mpr window)

/-- Ten tokens, and two more each second. -/
theorem allowN_window_burst :
    let calls : List AllowN := [⟨0, 10⟩, ⟨0, 1⟩, ⟨500000000, 1⟩, ⟨1000000000, 2⟩]
    (bucket.run (newTokenBucket 2 10 0) calls).2.map (·.2) = [true, false, true, false] ∧
      admitted 0 1000000000 (bucket.run (newTokenBucket 2 10 0) calls).2 ≤ 10 + 2 * seconds 1000000000 := by
  intro calls
  refine ⟨by decide +kernel, ?_⟩
  exact (allowN_window (by norm_num) (by decide) 0 calls (by decide) (by decide) (by decide)).2 0 1000000000 (by decide)

end FlowRulZ.Reliability
