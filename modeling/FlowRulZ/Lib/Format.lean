import Mathlib.Data.List.Basic

/-! # Byte formats

A format writes values as bytes and reads them back, whatever bytes follow.  Formats of
parts make formats of pairs and lists.
-/

structure Format (α : Type) where
  write : α → List UInt8
  read : List UInt8 → Option (α × List UInt8)
  read_write : ∀ a rest, read (write a ++ rest) = some (a, rest)

namespace Format

open List

variable {α β : Type}

def readAll (f : Format α) (bytes : List UInt8) : Option α := (f.read bytes).map Prod.fst

theorem readAll_write (f : Format α) (a : α) : f.readAll (f.write a) = some a := by
  have read := f.read_write a []
  rw [append_nil] at read
  simp [readAll, read]

def via (f : Format α) (store : β → α) (restore : α → β) (inverse : ∀ b, restore (store b) = b) : Format β where
  write b := f.write (store b)
  read bytes := (f.read bytes).map fun (a, rest) => (restore a, rest)
  read_write b rest := by simp [f.read_write, inverse]

def byte : Format UInt8 where
  write b := [b]
  read
    | [] => none
    | b :: rest => some (b, rest)
  read_write _ _ := rfl

def both (f : Format α) (g : Format β) : Format (α × β) where
  write p := f.write p.1 ++ g.write p.2
  read bytes :=
    (f.read bytes).bind fun (a, rest) => (g.read rest).map fun (b, rest) => ((a, b), rest)
  read_write p rest := by simp [List.append_assoc, f.read_write, g.read_write]

/-! ## Lists

A 1 stands before every element and a 0 at the end. -/

def writeList (f : Format α) : List α → List UInt8
  | [] => [0]
  | a :: rest => 1 :: f.write a ++ writeList f rest

def readList (f : Format α) : Nat → List UInt8 → Option (List α × List UInt8)
  | fuel + 1, mark :: bytes =>
    if mark = 0 then some ([], bytes)
    else
      (f.read bytes).bind fun (a, bytes) =>
        (readList f fuel bytes).map fun (rest, bytes) => (a :: rest, bytes)
  | _, _ => none

theorem length_writeList (f : Format α) (items : List α) : items.length < (writeList f items).length := by
  induction items with
  | nil => exact Nat.one_pos
  | cons a items ih =>
    simp only [writeList, length_cons, length_append]
    omega

theorem readList_writeList (f : Format α) (rest : List UInt8) (items : List α) :
    ∀ fuel, items.length < fuel → readList f fuel (writeList f items ++ rest) = some (items, rest) := by
  induction items with
  | nil =>
    intro fuel enough
    obtain ⟨fuel, rfl⟩ := Nat.exists_eq_add_one_of_ne_zero (Nat.ne_of_gt enough)
    rfl
  | cons a items ih =>
    intro fuel enough
    obtain ⟨fuel, rfl⟩ := Nat.exists_eq_add_one_of_ne_zero (Nat.ne_zero_of_lt enough)
    have more := ih fuel (Nat.lt_of_succ_lt_succ enough)
    simp [writeList, readList, append_assoc, f.read_write, more]

def many (f : Format α) : Format (List α) where
  write := writeList f
  read bytes := readList f bytes.length bytes
  read_write items rest := by
    apply readList_writeList
    have length := length_writeList f items
    rw [List.length_append]
    omega

def nat : Format Nat := (many byte).via (fun n => List.replicate n 0) List.length (by simp)

def text : Format String :=
  (many (nat.via Char.toNat Char.ofNat Char.ofNat_toNat)).via String.toList String.ofList (by simp)

end Format
