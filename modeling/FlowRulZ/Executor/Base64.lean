import FlowRulZ.Executor.Builtins
import FlowRulZ.Lib.Traverse

/-! # Base64

Three bytes are four letters of six bits each; the last group may be shorter.
-/

open List

namespace FlowRulZ.Base64

def letter (n : Nat) : Char := (base64Letter n).getD '='

/-- The byte of a letter in UTF-8. -/
def code (n : Nat) : UInt8 := .ofNat (letter n).toNat

theorem letter_spec : ∀ n < 64, base64Letter n = some (letter n) ∧ Utf8.encodeChar (letter n) = [code n] ∧
    base64Value (code n) = .ok n ∧ letter n ≠ '=' := by
  decide +kernel

/-- The bits of up to three bytes, six by six. -/
def six (bytes : Bytes) : List Nat :=
  let triple := (bytes[0]?.getD 0).toNat * 2 ^ 16 + (bytes[1]?.getD 0).toNat * 2 ^ 8 + (bytes[2]?.getD 0).toNat
  [triple / 2 ^ 18 % 64, triple / 2 ^ 12 % 64, triple / 2 ^ 6 % 64, triple % 64].take (bytes.length + 1)

/-- The bits of up to four letters, eight by eight. -/
def eight (vs : List Nat) : Bytes :=
  (List.range (6 * vs.length / 8)).map fun i =>
    .ofNat (vs.foldl (fun buf value => buf * 2 ^ 6 + value) 0 / 2 ^ (6 * vs.length - 8 * (i + 1)))

theorem eight_six (b0 b1 b2 : UInt8) :
    eight (six [b0]) = [b0] ∧ eight (six [b0, b1]) = [b0, b1] ∧ eight (six [b0, b1, b2]) = [b0, b1, b2] := by
  have := b0.toNat_lt
  have := b1.toNat_lt
  have := b2.toNat_lt
  simp [six, eight, range_succ, ← UInt8.toNat_inj]
  omega

variable {bytes : Bytes} {vs : List Nat} {pad : Nat}

theorem six_spec (some : bytes ≠ []) (short : bytes.length ≤ 3) :
    (six bytes).length = bytes.length + 1 ∧ (∀ v ∈ six bytes, v < 64) ∧ eight (six bytes) = bytes ∧
      base64Group bytes = .some ((six bytes).map letter ++ replicate (3 - bytes.length) '=') := by
  have spec (n : Nat) : base64Letter (n % 64) = .some (letter (n % 64)) :=
    (letter_spec _ (Nat.mod_lt _ (by decide))).1
  match bytes, some, short with
  | [b0], _, _ => exact ⟨rfl, by simp [six, Nat.mod_lt], (eight_six b0 0 0).1, by simp [base64Group, spec, six]⟩
  | [b0, b1], _, _ => exact ⟨rfl, by simp [six, Nat.mod_lt], (eight_six b0 b1 0).2.1, by simp [base64Group, spec, six]⟩
  | [b0, b1, b2], _, _ =>
    exact ⟨rfl, by simp [six, Nat.mod_lt], (eight_six b0 b1 b2).2.2, by simp [base64Group, spec, six]⟩

theorem length_eight (vs : List Nat) : (eight vs).length = 6 * vs.length / 8 := by
  rw [eight, length_map, length_range]

theorem six_eight (long : 2 ≤ vs.length) (short : vs.length ≤ 4) (small : ∀ v ∈ vs, v < 64)
    (low : ∀ last ∈ vs.getLast?, last % 4 ^ (4 - vs.length) = 0) : six (eight vs) = vs := by
  match vs, long, short with
  | [a, b], _, _ | [a, b, c], _, _ | [a, b, c, d], _, _ =>
    simp only [forall_mem_cons] at small
    simp [getLast?_cons] at low
    simp [six, eight, range_succ]
    omega

/-- Bytes with the values of their letters, and how many signs fill up the last group. -/
inductive Coded : Bytes → List Nat → Nat → Prop
  | nil : Coded [] [] 0
  | last {bytes : Bytes} (some : bytes ≠ []) (short : bytes.length ≤ 3) : Coded bytes (six bytes) (3 - bytes.length)
  | more {front rest : Bytes} {vs : List Nat} {pad : Nat} (full : front.length = 3) (later : Coded rest vs pad) :
      Coded (front ++ rest) (six front ++ vs) pad

theorem bytes_eight (small : ∀ v ∈ vs, v < 64) : base64Bytes (vs.map code) = .ok (eight vs) := by
  have values : (vs.map code).mapM base64Value = .ok vs := by
    rw [Traverse.mapM_eq_ok_iff, map_map]
    exact map_congr_left fun v inside => Traverse.toOption_eq_some.mpr (letter_spec v (small v inside)).2.2.1
  rw [base64Bytes, values]
  rfl

/-- Only the signs at the end are trimmed. -/
theorem encode_trimmed (small : ∀ v ∈ vs, v < 64) :
    Utf8.encode (Text.trimEndMatches (String.ofList (vs.map letter ++ replicate pad '=')) '=') = vs.map code := by
  have trimmed : (vs.map letter ++ replicate pad '=').rdropWhile (· == '=') = vs.map letter := by
    induction pad with
    | zero =>
      rw [replicate_zero, append_nil, rdropWhile_eq_self_iff]
      intro some sign
      obtain ⟨v, inside, last⟩ := mem_map.mp (getLast_mem some)
      exact (letter_spec v (small v inside)).2.2.2 (last.trans (eq_of_beq sign))
    | succ pad ih => rw [replicate_succ', ← append_assoc, rdropWhile_concat_pos _ _ _ (by simp), ih]
  rw [Utf8.encode, Text.trimEndMatches, String.toList_ofList, String.toList_ofList, trimmed, flatMap_map,
    flatMap_congr fun v inside => (letter_spec v (small v inside)).2.1]
  exact flatMap_pure_eq_map code vs

theorem Coded.spec (coded : Coded bytes vs pad) : (∀ v ∈ vs, v < 64) ∧
    base64Letters bytes = some (vs.map letter ++ replicate pad '=') ∧
    ((Chunks.chunks 4 (vs.map code)).mapM base64Bytes).map flatten = .ok bytes := by
  induction coded with
  | nil => exact ⟨by simp, rfl, rfl⟩
  | last some short =>
    obtain ⟨length, small, back, group⟩ := six_spec some short
    refine ⟨small, by simp [base64Letters, Chunks.chunks_short some short, group], ?_⟩
    rw [Chunks.chunks_short (length_pos_iff.mp (by rw [length_map]; omega)) (by rw [length_map]; omega), mapM_cons,
      bytes_eight small, back]
    exact congrArg _ (append_nil _)
  | @more _ _ vs _ full _ ih =>
    obtain ⟨length, small, back, group⟩ := six_spec (length_pos_iff.mp (by omega)) full.le
    obtain ⟨smaller, letters, decoded⟩ := ih
    refine ⟨forall_mem_append.mpr ⟨small, smaller⟩, ?_, ?_⟩
    · obtain ⟨groups, made, flat⟩ := Option.map_eq_some_iff.mp letters
      simp [base64Letters, Chunks.chunks_append full (by decide), group, made, flat, full]
    · rw [map_append, Chunks.chunks_append (by rw [length_map, length, full]) (by decide), mapM_cons, bytes_eight small,
        back]
      cases made : (Chunks.chunks 4 (vs.map code)).mapM base64Bytes <;> rw [made] at decoded <;> cases decoded
      rfl

theorem Coded.round_trips (coded : Coded bytes vs pad) :
    base64Letters bytes = some (vs.map letter ++ replicate pad '=') ∧
      decodeBase64 (String.ofList (vs.map letter ++ replicate pad '=')) = .ok bytes := by
  obtain ⟨small, letters, decoded⟩ := coded.spec
  refine ⟨letters, ?_⟩
  rw [decodeBase64, encode_trimmed small]
  exact decoded

theorem exists_coded : ∀ bytes, ∃ vs pad, Coded bytes vs pad
  | [] => ⟨_, _, .nil⟩
  | [_] | [_, _] => ⟨_, _, .last (cons_ne_nil _ _) (by simp)⟩
  | b0 :: b1 :: b2 :: rest => by
    obtain ⟨vs, pad, later⟩ := exists_coded rest
    exact ⟨_, _, .more (show [b0, b1, b2].length = 3 from rfl) later⟩

theorem coded_last (long : 2 ≤ vs.length) (whole : vs.length + pad = 4) (small : ∀ v ∈ vs, v < 64)
    (low : ∀ last ∈ vs.getLast?, last % 4 ^ pad = 0) : Coded (eight vs) vs pad := by
  obtain rfl : pad = 4 - vs.length := by omega
  have length := length_eight vs
  have last := Coded.last (length_pos_iff.mp (show 0 < (eight vs).length by omega)) (by omega)
  rwa [six_eight long (by omega) small low, show 3 - (eight vs).length = 4 - vs.length by omega] at last

theorem coded_of_letters (few : pad ≤ 2) : ∀ vs : List Nat, (∀ v ∈ vs, v < 64) → (vs.length + pad) % 4 = 0 →
    (∀ last ∈ vs.getLast?, last % 4 ^ pad = 0) → ∃ bytes, Coded bytes vs pad
  | [], _, whole, _ => by
    obtain rfl : pad = 0 := by rw [length_nil] at whole; omega
    exact ⟨[], .nil⟩
  | [a], _, whole, _ => by
    rw [length_singleton] at whole
    omega
  | [a, b], small, whole, low | [a, b, c], small, whole, low => by
    exact ⟨_, coded_last (by simp) (by simp only [length_cons, length_nil] at whole ⊢; omega) small low⟩
  | a :: b :: c :: d :: rest, small, whole, low => by
    obtain ⟨here, later⟩ := forall_mem_append.mp (show ∀ v ∈ [a, b, c, d] ++ rest, v < 64 from small)
    obtain ⟨bytes, coded⟩ := coded_of_letters few rest later (by simp only [length_cons] at whole; omega)
      fun last there => low last (mem_getLast?_cons (mem_getLast?_cons (mem_getLast?_cons (mem_getLast?_cons there))))
    have more := Coded.more (show (eight [a, b, c, d]).length = 3 by simp [length_eight]) coded
    rw [six_eight (by simp) (by simp) here (by simp [Nat.mod_one])] at more
    exact ⟨_, more⟩

/-- Encoded bytes are decoded, and letters whose spare bits are zero are encoded again. -/
theorem base64_round_trips :
    (∀ s, ∃ text, base64Encode s = some text ∧ decodeBase64 text = .ok (Utf8.encode s)) ∧
    ∀ letters pad bytes, (∀ c ∈ letters, c ∈ base64Alphabet) → pad ≤ 2 → (letters.length + pad) % 4 = 0 →
      (∀ last ∈ letters.getLast?, base64Alphabet.idxOf last % 4 ^ pad = 0) →
      decodeBase64 (String.ofList (letters ++ List.replicate pad '=')) = .ok bytes →
      base64Letters bytes = some (letters ++ List.replicate pad '=') := by
  constructor
  · intro s
    obtain ⟨vs, pad, coded⟩ := exists_coded (Utf8.encode s)
    obtain ⟨letters, decoded⟩ := coded.round_trips
    exact ⟨_, by rw [base64Encode, letters, Option.map_some], decoded⟩
  · intro letters pad bytes known few whole low decoded
    have spelled : ∀ c ∈ base64Alphabet, letter (base64Alphabet.idxOf c) = c ∧ base64Alphabet.idxOf c < 64 := by
      intro c inside
      refine ⟨?_, idxOf_lt_length_of_mem inside⟩
      rw [letter, base64Letter, getElem?_idxOf inside, Option.getD_some]
    have same : (letters.map base64Alphabet.idxOf).map letter = letters := by
      rw [map_map]
      exact (map_congr_left fun c inside => (spelled c (known c inside)).1).trans (map_id letters)
    obtain ⟨bytes', coded⟩ := coded_of_letters few (letters.map base64Alphabet.idxOf)
      (forall_mem_map.mpr fun c inside => (spelled c (known c inside)).2) (by rwa [length_map]) (by simpa using low)
    have spec := coded.round_trips
    rw [same] at spec
    cases decoded.symm.trans spec.2
    exact spec.1

theorem base64_round_trips_padded : base64Letters [0x4D] = some ['T', 'Q', '=', '='] :=
  base64_round_trips.2 ['T', 'Q'] 2 [0x4D] (forall_mem_cons.mpr ⟨by decide, forall_mem_singleton.mpr (by decide)⟩)
    (by decide) (by decide) (by rintro _ ⟨⟩; decide) (by decide +kernel)

end FlowRulZ.Base64
