import FlowRulZ.Lib.Text

/-! # Texts by bytes

Positions in a Rust string count bytes of its UTF-8 form.  A slice whose end lies inside a character,
or behind the text, panics: it has no value here.
-/

namespace Text

open List String String

def byteLen : List Char → Nat
  | [] => 0
  | c :: rest => c.utf8Size + byteLen rest

def dropBytes : List Char → Nat → Option (List Char)
  | chars, 0 => some chars
  | [], _ + 1 => none
  | c :: chars, n + 1 => if c.utf8Size ≤ n + 1 then dropBytes chars (n + 1 - c.utf8Size) else none

def takeBytes : List Char → Nat → Option (List Char)
  | _, 0 => some []
  | [], _ + 1 => none
  | c :: chars, n + 1 =>
    if c.utf8Size ≤ n + 1 then (takeBytes chars (n + 1 - c.utf8Size)).map (c :: ·) else none

def findBytes (pattern : List Char) : List Char → Option Nat
  | [] => if pattern.isEmpty then some 0 else none
  | c :: chars =>
    if pattern.isPrefixOf (c :: chars) then some 0 else (findBytes pattern chars).map (· + c.utf8Size)

@[simp]
theorem byteLen_cons (c : Char) (chars : List Char) : byteLen (c :: chars) = c.utf8Size + byteLen chars := rfl

@[simp]
theorem byteLen_append (a b : List Char) : byteLen (a ++ b) = byteLen a + byteLen b := by
  induction a with
  | nil => simp [byteLen]
  | cons c a ih => rw [cons_append, byteLen_cons, ih, byteLen_cons, Nat.add_assoc]

theorem bytes_append (a b : List Char) :
    takeBytes (a ++ b) (byteLen a) = some a ∧ dropBytes (a ++ b) (byteLen a) = some b := by
  induction a with
  | nil => cases b <;> exact ⟨rfl, rfl⟩
  | cons c a ih =>
    obtain ⟨n, size⟩ := Nat.exists_eq_add_one_of_ne_zero (Nat.ne_of_gt c.utf8Size_pos)
    have left : n + byteLen a + 1 - (n + 1) = byteLen a := by omega
    rw [byteLen_cons, cons_append, size, Nat.add_right_comm, takeBytes, dropBytes, size, left, ih.1, ih.2]
    simp

variable {n : Nat}

theorem dropBytes_some {chars rest : List Char} (cut : dropBytes chars n = some rest) :
    ∃ front, chars = front ++ rest ∧ n = byteLen front := by
  fun_induction dropBytes chars n with
  | case1 chars =>
    cases cut
    exact ⟨[], rfl, rfl⟩
  | case2 => cases cut
  | case3 c chars n small ih =>
    obtain ⟨front, rfl, size⟩ := ih cut
    exact ⟨c :: front, rfl, by rw [byteLen_cons]; omega⟩
  | case4 => cases cut

theorem takeBytes_some {chars front : List Char} (cut : takeBytes chars n = some front) :
    ∃ rest, chars = front ++ rest ∧ n = byteLen front := by
  fun_induction takeBytes chars n generalizing front with
  | case1 chars =>
    cases cut
    exact ⟨chars, rfl, rfl⟩
  | case2 => cases cut
  | case3 c chars n small ih =>
    obtain ⟨front, inside, rfl⟩ := Option.map_eq_some_iff.mp cut
    obtain ⟨rest, rfl, size⟩ := ih inside
    exact ⟨rest, rfl, by rw [byteLen_cons]; omega⟩
  | case4 => cases cut

theorem findBytes_some {pattern chars : List Char} (found : findBytes pattern chars = some n) :
    ∃ before after, chars = before ++ (pattern ++ after) ∧ n = byteLen before := by
  induction chars generalizing n with
  | nil =>
    unfold findBytes at found
    split_ifs at found with empty
    cases found
    exact ⟨[], [], by simpa using empty, rfl⟩
  | cons c chars ih =>
    unfold findBytes at found
    split_ifs at found with starts
    · cases found
      obtain ⟨after, whole⟩ := isPrefixOf_iff_prefix.mp starts
      exact ⟨[], after, whole.symm, rfl⟩
    · obtain ⟨m, later, rfl⟩ := Option.map_eq_some_iff.mp found
      obtain ⟨before, after, rfl, rfl⟩ := ih later
      exact ⟨c :: before, after, rfl, by rw [byteLen_cons, Nat.add_comm]⟩

variable {c : Char}

theorem findBytes_singleton {a b : List Char} (free : c ∉ a) : findBytes [c] (a ++ c :: b) = some (byteLen a) := by
  induction a with
  | nil => simp [findBytes, List.isPrefixOf, byteLen]
  | cons d a ih =>
    have differ : c ≠ d := fun same => free (same ▸ mem_cons_self)
    have rest := ih fun later => free (mem_cons_of_mem d later)
    rw [cons_append, findBytes, rest]
    simp [List.isPrefixOf, differ, Nat.add_comm]

def len (s : String) : Nat := byteLen s.toList

def sliceFrom (s : String) (start : Nat) : Option String := (dropBytes s.toList start).map String.ofList

def sliceTo (s : String) (stop : Nat) : Option String := (takeBytes s.toList stop).map String.ofList

def slice (s : String) (start stop : Nat) : Option String :=
  if start ≤ stop then (sliceFrom s start).bind fun rest => sliceTo rest (stop - start) else none

/-- `str::find` of a pattern. -/
def find (s pattern : String) : Option Nat := findBytes pattern.toList s.toList

theorem sliceFrom_append (a b : String) : sliceFrom (a ++ b) (len a) = some b := by
  rw [sliceFrom, len, toList_append, (bytes_append _ _).2, Option.map_some, ofList_toList]

theorem sliceTo_append (a b : String) : sliceTo (a ++ b) (len a) = some a := by
  rw [sliceTo, len, toList_append, (bytes_append _ _).1, Option.map_some, ofList_toList]

theorem len_append (a b : String) : len (a ++ b) = len a + len b := by
  rw [len, toList_append, byteLen_append]
  rfl

theorem len_singleton (one : c.utf8Size = 1) : len (singleton c) = 1 := by
  rw [len, toList_singleton, byteLen_cons, one]
  rfl

variable {s : String}

theorem slice_second {c d : Char} {rest : List Char} (chars : s.toList = c :: d :: rest)
    (one : c.utf8Size = 1) : slice s 1 2 = if d.utf8Size = 1 then some (singleton d) else none := by
  have whole : s = singleton c ++ (singleton d ++ ofList rest) := by
    apply toList_injective
    simp [chars]
  have behind : sliceFrom s 1 = some (singleton d ++ ofList rest) := by
    rw [whole, ← len_singleton one]
    exact sliceFrom_append _ _
  rw [slice, if_pos (by decide), behind]
  split_ifs with small
  · have first := sliceTo_append (singleton d) (ofList rest)
    rwa [len_singleton small] at first
  · have wide : ¬ d.utf8Size ≤ 0 + 1 := fun narrow => small (Nat.le_antisymm narrow d.utf8Size_pos)
    simp [sliceTo, takeBytes, wide]

theorem slice_eq_some {s part : String} {start stop : Nat} : slice s start stop = some part ↔
    ∃ before after, s = before ++ part ++ after ∧ start = len before ∧ stop = len before + len part := by
  constructor
  · intro cut
    unfold slice at cut
    split_ifs at cut with ordered
    obtain ⟨rest, from_, to_⟩ := Option.bind_eq_some_iff.mp cut
    obtain ⟨chars, dropped, rfl⟩ := Option.map_eq_some_iff.mp from_
    obtain ⟨inside, taken, rfl⟩ := Option.map_eq_some_iff.mp to_
    rw [toList_ofList] at taken
    obtain ⟨before, whole, rfl⟩ := dropBytes_some dropped
    obtain ⟨after, rfl, size⟩ := takeBytes_some taken
    refine ⟨ofList before, ofList after, ?_, ?_, ?_⟩
    · apply toList_injective
      simp [whole]
    · simp [len]
    · simp only [len, toList_ofList]
      omega
  · rintro ⟨before, after, rfl, rfl, rfl⟩
    rw [slice, if_pos (Nat.le_add_right _ _), String.append_assoc, sliceFrom_append, Option.bind_some,
      Nat.add_sub_cancel_left, sliceTo_append]

theorem slice_part {before part after : List Char} (whole : s.toList = before ++ part ++ after) :
    slice s (byteLen before) (byteLen before + byteLen part) = some (ofList part) := by
  refine slice_eq_some.mpr ⟨ofList before, ofList after, ?_, ?_, ?_⟩
  · apply toList_injective
    simp [whole]
  · simp [len]
  · simp [len]

theorem sliceFrom_eq_slice (s : String) (start : Nat) : sliceFrom s start = slice s start (len s) := by
  cases cut : sliceFrom s start with
  | none => simp [slice, cut]
  | some rest =>
    obtain ⟨chars, dropped, rfl⟩ := Option.map_eq_some_iff.mp cut
    obtain ⟨before, whole, rfl⟩ := dropBytes_some dropped
    obtain rfl : s = ofList before ++ ofList chars := by
      apply toList_injective
      simp [whole]
    refine (slice_eq_some.mpr ⟨ofList before, "", ?_, ?_, ?_⟩).symm
    · rw [append_empty]
    · simp [len]
    · rw [len_append]

theorem find_singleton (sign : String) (one : sign.toList = [c]) {a b : String} (free : c ∉ a.toList) :
    find (a ++ sign ++ b) sign = some (len a) := by
  have whole : (a ++ sign ++ b).toList = a.toList ++ c :: b.toList := by simp [one]
  rw [find, whole, one]
  exact findBytes_singleton free

theorem find_split {s pattern : String} (found : find s pattern = some n) :
    ∃ before after, s = before ++ pattern ++ after ∧ n = len before := by
  obtain ⟨before, after, whole, rfl⟩ := findBytes_some found
  refine ⟨ofList before, ofList after, ?_, by simp [len]⟩
  apply toList_injective
  simp [whole]

theorem find_some {s pattern : String} (found : find s pattern = some n) :
    ∃ before after, sliceTo s n = some before ∧ sliceFrom s (n + len pattern) = some after := by
  obtain ⟨before, after, rfl, rfl⟩ := find_split found
  refine ⟨before, after, ?_, ?_⟩
  · rw [String.append_assoc]
    exact sliceTo_append _ _
  · rw [← len_append]
    exact sliceFrom_append _ _

theorem startsWith_iff {s pre : String} : startsWith s pre = true ↔ ∃ rest, s = pre ++ rest := by
  rw [startsWith, isPrefixOf_iff_prefix]
  constructor
  · rintro ⟨rest, whole⟩
    refine ⟨ofList rest, toList_injective ?_⟩
    simp [← whole]
  · rintro ⟨rest, rfl⟩
    exact ⟨rest.toList, by simp⟩

theorem startsWith_of_not_mem (pre : String) (free : c ∉ s.toList) (inside : c ∈ pre.toList) :
    startsWith s pre = false := by
  rw [← Bool.not_eq_true]
  intro starts
  obtain ⟨rest, rfl⟩ := startsWith_iff.mp starts
  exact free (by simp [inside])

theorem endsWith_iff {s post : String} : endsWith s post = true ↔ ∃ front, s = front ++ post := by
  rw [endsWith, isSuffixOf_iff_suffix]
  constructor
  · rintro ⟨front, whole⟩
    refine ⟨ofList front, toList_injective ?_⟩
    simp [← whole]
  · rintro ⟨front, rfl⟩
    exact ⟨front.toList, by simp⟩

end Text
