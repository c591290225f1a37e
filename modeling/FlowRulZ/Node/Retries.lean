import FlowRulZ.Lib.Utf8
import FlowRulZ.Node.ServiceCaller
import Mathlib.Algebra.Order.Ring.Int

/-! # Retries and frames

`CallServiceWithRetry` doubles its delay with every attempt, in 64 bits.  `callTCP` writes one length for the method and
the body together.
-/

namespace FlowRulZ.Node.ServiceCaller

open List

/-- Five seconds, in nanoseconds. -/
def maxDelay : Int64 := 5000000000

def effectiveBase (baseDelay : Int64) : Int64 := if baseDelay ≤ 0 then 100000000 else baseDelay

/-- The wait before an attempt; bits that are shifted out are lost. -/
def delay (base : Int64) (attempt : Nat) : Int64 :=
  let delay := base * Int64.ofInt (2 ^ (attempt - 1))
  if maxDelay < delay then maxDelay else delay

def delays (maxRetries : Int) (baseDelay : Int64) : List Int64 :=
  (range maxRetries.toNat).map fun i => delay (effectiveBase baseDelay) (i + 1)

def Sane (base : Int64) (delays : List Int64) : Prop :=
  (∀ d ∈ delays, min base.toInt maxDelay.toInt ≤ d.toInt ∧ d ≤ maxDelay) ∧ delays.Pairwise (· ≤ ·)

theorem effectiveBase_pos (baseDelay : Int64) : 0 < (effectiveBase baseDelay).toInt := by
  unfold effectiveBase
  split
  · decide
  · rename_i positive
    rw [Int64.le_iff_toInt_le] at positive
    simpa using positive

variable {base : Int64} {i : Nat}

theorem product_toInt (base : Int64) (i : Nat) :
    (base * Int64.ofInt (2 ^ i)).toInt = (base.toInt * 2 ^ i).bmod (2 ^ 64) := by
  rw [Int64.toInt_mul, Int64.toInt_ofInt]
  exact Int.mul_bmod_bmod

theorem product_le (positive : 0 < base.toInt) {j : Nat} (le : i ≤ j) : base.toInt * 2 ^ i ≤ base.toInt * 2 ^ j :=
  mul_le_mul_of_nonneg_left (pow_le_pow_right₀ (by decide) le) positive.le

/-- A product that fits is cut at five seconds. -/
theorem delay_of_fits (positive : 0 < base.toInt) (fits : base.toInt * 2 ^ i < 2 ^ 63) :
    (delay base (i + 1)).toInt = min (base.toInt * 2 ^ i) maxDelay.toInt := by
  have product : (base * Int64.ofInt (2 ^ i)).toInt = base.toInt * 2 ^ i := by
    have first := product_le positive (Nat.zero_le i)
    rw [product_toInt]
    exact Int.bmod_eq_of_le (by omega) (by omega)
  simp only [delay, Nat.add_sub_cancel, Int64.lt_iff_toInt_lt, product]
  split <;> omega

/-- The first product that does not fit is negative. -/
theorem delay_of_wraps (fits : base.toInt * 2 ^ i < 2 ^ 63) (wraps : 2 ^ 63 ≤ base.toInt * 2 ^ (i + 1)) :
    (delay base (i + 1 + 1)).toInt < 0 := by
  have twice : base.toInt * 2 ^ (i + 1) = base.toInt * 2 ^ i * 2 := by rw [pow_succ, mul_assoc]
  have product : (base * Int64.ofInt (2 ^ (i + 1))).toInt < 0 := by
    rw [product_toInt, Int.bmod_def]
    omega
  simp only [delay, Nat.add_sub_cancel, Int64.lt_iff_toInt_lt]
  rw [if_neg]
  · exact product
  · have cap : maxDelay.toInt = 5000000000 := rfl
    omega

/-- The delays are as they should be exactly if the last product fits in 63 bits. -/
theorem delays_sane_iff (maxRetries : Int) (baseDelay : Int64) :
    Sane (effectiveBase baseDelay) (delays maxRetries baseDelay) ↔
      (effectiveBase baseDelay).toInt * 2 ^ (maxRetries.toNat - 1) < 2 ^ 63 := by
  have positive := effectiveBase_pos baseDelay
  have cap : maxDelay.toInt = 5000000000 := rfl
  unfold delays
  generalize effectiveBase baseDelay = base at *
  constructor
  · rintro ⟨bounds, -⟩
    have all : ∀ i, i ≤ maxRetries.toNat - 1 → base.toInt * 2 ^ i < 2 ^ 63 := by
      intro i
      induction i with
      | zero => simpa using base.toInt_lt
      | succ i ih =>
        intro inside
        by_contra wraps
        have negative := delay_of_wraps (ih (by omega)) (by omega)
        have bound := (bounds _ (mem_map_of_mem (mem_range.mpr (show i + 1 < maxRetries.toNat by omega)))).1
        omega
    exact all _ le_rfl
  · intro last
    have fits (i : Nat) (inside : i < maxRetries.toNat) : base.toInt * 2 ^ i < 2 ^ 63 :=
      (product_le positive (by omega)).trans_lt last
    refine ⟨?_, pairwise_map.mpr ?_⟩
    · intro d member
      obtain ⟨i, inside, rfl⟩ := mem_map.mp member
      have first := product_le positive (Nat.zero_le i)
      rw [Int64.le_iff_toInt_le, delay_of_fits positive (fits i (mem_range.mp inside))]
      omega
    · refine pairwise_lt_range.imp_of_mem fun {i j} hi hj less => ?_
      have grows := product_le positive less.le
      rw [Int64.le_iff_toInt_le, delay_of_fits positive (fits i (mem_range.mp hi)),
        delay_of_fits positive (fits j (mem_range.mp hj))]
      omega

/-- With the default of 100 milliseconds, the 57th retry does not wait at all. -/
theorem delays_vanish : (delays 57 0)[56]? = some 0 ∧ ¬ Sane (effectiveBase 0) (delays 57 0) := by
  have last : (delays 57 0)[56]? = some 0 := by decide +kernel
  exact ⟨last, fun sane => absurd (sane.1 0 (mem_of_getElem? last)).1 (by decide)⟩

def frame (method : String) (body : Bytes) : Bytes :=
  let msg := Utf8.encode method ++ body
  ([24, 16, 8, 0] : List UInt32).map (fun bits => (UInt32.ofNat msg.length >>> bits).toUInt8) ++ msg

theorem frame_eq_iff {method method' : String} {body body' : Bytes} :
    frame method body = frame method' body' ↔ Utf8.encode method ++ body = Utf8.encode method' ++ body' :=
  ⟨fun equal => (append_inj equal (by simp)).2, fun equal => by simp only [frame, equal]⟩

/-- The limit of the body of a call. -/
def maxBodyBytes : Nat := 10 * 1024 * 1024

theorem encode_length_le {method : String} (valid : validMethodName method = true) :
    (Utf8.encode method).length ≤ maxBodyBytes := by
  have short : method.toList.length ≤ 256 := by
    unfold validMethodName matchName at valid
    cases chars : method.toList with
    | nil => simp
    | cons c rest =>
      simp only [chars, Bool.and_eq_true, decide_eq_true_eq] at valid
      exact Nat.succ_le_succ valid.1.2
  have := Utf8.encode_length_le method
  exact le_trans (by omega) (show 1024 ≤ maxBodyBytes by decide)

/-- The calls of two methods can be told from their frames exactly if neither method begins with the other. -/
theorem frame_injective_iff (method method' : String) (valid : validMethodName method = true)
    (valid' : validMethodName method' = true) :
    (∀ body body' : Bytes, body.length ≤ maxBodyBytes → body'.length ≤ maxBodyBytes →
        frame method body = frame method' body' → method = method' ∧ body = body') ↔
      (Utf8.encode method <+: Utf8.encode method' ∨ Utf8.encode method' <+: Utf8.encode method → method = method') := by
  constructor
  · -- the rest of the longer method is the body of a call of the other one
    rintro told (⟨rest, longer⟩ | ⟨rest, longer⟩)
    · have fits : rest.length ≤ maxBodyBytes :=
        le_trans (by simp [← longer]) (encode_length_le valid')
      exact (told rest [] fits (Nat.zero_le _) (frame_eq_iff.mpr (by simp [longer]))).1
    · have fits : rest.length ≤ maxBodyBytes :=
        le_trans (by simp [← longer]) (encode_length_le valid)
      exact (told [] rest (Nat.zero_le _) fits (frame_eq_iff.mpr (by simp [longer]))).1
  · intro apart body body' _ _ equal
    have same := frame_eq_iff.mp equal
    obtain rfl := apart ( prefix_or_prefix_of_prefix (prefix_append _ body) (same ▸ prefix_append _ body'))
    exact ⟨rfl, append_cancel_left same⟩

theorem frame_injective_get_set : validMethodName "get" = true ∧ validMethodName "set" = true ∧
      ∀ body body' : Bytes, body.length ≤ maxBodyBytes → body'.length ≤ maxBodyBytes →
        frame "get" body = frame "set" body' → "get" = "set" ∧ body = body' := by
  have valid : validMethodName "get" = true := by decide +kernel
  have valid' : validMethodName "set" = true := by decide +kernel
  exact ⟨valid, valid', (frame_injective_iff _ _ valid valid').mpr (by decide +kernel)⟩

/-- The frames of two calls with other methods are the same. -/
theorem frames_collide : validMethodName "ab" = true ∧ validMethodName "a" = true ∧ frame "ab" [] = frame "a" [98] := by
  decide +kernel

end FlowRulZ.Node.ServiceCaller
