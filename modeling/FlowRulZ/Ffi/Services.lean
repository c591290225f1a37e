import FlowRulZ.Ffi.Step

/-! # The services of a plan as JSON

`serde_json` writes the rows of the service table, `flowrulz_plan_services` copies as much of
the text as fits the buffer, and `encoding/json` reads that.  Only texts that `serde_json`
writes arrive there, and beginnings of them, which are not JSON.
-/

namespace FlowRulZ

open List

def shortEscapes : List (UInt8 × UInt8) :=
  [(0x22, 0x22), (0x5C, 0x5C), (8, 0x62), (9, 0x74), (10, 0x6E), (12, 0x66), (13, 0x72)]

def hexDigit (n : UInt8) : UInt8 := if n < 10 then 48 + n else 87 + n

/-- A byte of a string: as a letter behind a backslash, as a code or as it is. -/
def escapeByte (b : UInt8) : Bytes :=
  match shortEscapes.lookup b with
  | some c => [0x5C, c]
  | none => if b < 0x20 then [0x5C, 0x75, 48, 48, hexDigit (b / 16), hexDigit (b % 16)] else [b]

/-- A row as `serde_json` writes it, an object with the fields `id` and `name`. -/
def entryJson (entry : ServiceEntry) : Bytes :=
  Utf8.encode ("\x7b\"id\":" ++ toString entry.id.toNat ++ ",\"name\":\"") ++
    (Utf8.encode entry.name).flatMap escapeByte ++ Utf8.encode "\"\x7d"

/-- The rows with commas before them, but for the first. -/
def tableJson (rows : List ServiceEntry) : Bytes :=
  0x5B :: (rows.flatMap fun entry => 0x2C :: entryJson entry).drop 1 ++ [0x5D]

example : tableJson [⟨0, "a"⟩, ⟨1, "b\"\n"⟩] =
    Utf8.encode "[\x7b\"id\":0,\"name\":\"a\"\x7d,\x7b\"id\":1,\"name\":\"b\\\"\\n\"\x7d]" := by
  decide +kernel

/-- Rows go over the wire as JSON, of which `encoding/json` refuses every proper beginning. -/
structure Wire.AsJson (wire : Wire) (rows : List ServiceEntry) : Prop where
  written : wire.servicesJson rows = tableJson rows
  cut : ∀ n < (tableJson rows).length, wire.readServices ((tableJson rows).take n) = none

theorem length_le_tableJson (rows : List ServiceEntry) : rows.length ≤ (tableJson rows).length := by
  have each : rows.length ≤ (rows.flatMap fun entry => 0x2C :: entryJson entry).length := by
    induction rows with
    | nil => exact Nat.le_refl 0
    | cons entry rows ih =>
      simp only [flatMap_cons, length_append, length_cons]
      omega
  simp only [tableJson, length_append, length_cons, length_drop]
  omega

theorem length_le_escaped (bytes : Bytes) : bytes.length ≤ (bytes.flatMap escapeByte).length := by
  induction bytes with
  | nil => exact Nat.le_refl 0
  | cons b bytes ih =>
    have some : 1 ≤ (escapeByte b).length := by
      unfold escapeByte
      split
      · simp
      · split_ifs <;> simp
    simp only [flatMap_cons, length_append, length_cons]
    omega

variable {wire : Wire} {plan : ExecutionPlan} {bytes : Bytes}

theorem planServices_eq (stored : wire.readPlan bytes = some plan) (version : plan.version = bytecodeVersion)
    (json : wire.AsJson plan.services.rows) :
    planServices wire bytes =
      if (tableJson plan.services.rows).length ≤ planBufferSize then .ok plan.services.rows
      else .error "plan services: unmarshal" := by
  have filled : bytes.isEmpty = false := by
    cases bytes with
    | nil => rw [wire.readPlan_nil] at stored; cases stored
    | cons _ _ => rfl
  simp only [planServices, filled, Bool.false_eq_true, if_false, flowrulzPlanServices, stored, version, ne_eq,
    not_true_eq_false, json.written]
  split_ifs with small
  · rw [take_of_length_le small, ← json.written, wire.readServices_servicesJson]
  · rw [json.cut _ (Nat.lt_of_not_le small)]

end FlowRulZ
