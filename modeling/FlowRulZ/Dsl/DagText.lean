import FlowRulZ.Dsl.DagTable

/-! # The text of a DAG

`compile_dag` cuts the text at every comma, also inside brackets.  So of a list of dependencies only
the first one stays with its node, and the others become nodes, the last one with its bracket.
-/

open List

namespace FlowRulZ

namespace Deps

variable (deps : Deps) (name other : String)

@[simp]
theorem get?_cons (row : String × List String) :
    get? (row :: deps) name = if name = row.1 then some row.2 else deps.get? name := by
  obtain ⟨key, value⟩ := row
  rw [get?, lookup_cons]
  by_cases same : name = key
  · simp [same]
  · rw [beq_false_of_ne same, if_neg same]
    rfl

theorem get?_none : deps.get? name = none ↔ name ∉ deps.keys := by
  rw [get?, keys, ← forall_mem_ne]
  simp

theorem get?_concat (value : List String) : get? (deps ++ [(name, value)]) other =
    (deps.get? other).or (if other = name then some value else none) := by
  have last := get?_cons [] other (name, value)
  rw [get?, lookup_append]
  exact congrArg _ last

theorem get?_orDefault : (deps.orDefault name).get? other =
    (deps.get? other).or (if other = name then some [] else none) := by
  unfold orDefault
  split
  · rename_i inside
    by_cases same : other = name
    · cases found : deps.get? other with
      | none => exact absurd (same ▸ inside) ((get?_none deps other).mp found)
      | some value => rfl
    · rw [if_neg same, Option.or_none]
  · exact get?_concat deps name other []

theorem get?_foldl_orDefault (names : List String) : (names.foldl orDefault deps).get? other =
    (deps.get? other).or (if other ∈ names then some [] else none) := by
  induction names generalizing deps with
  | nil => simp
  | cons name names ih =>
    rw [foldl_cons, ih, get?_orDefault]
    by_cases same : other = name <;> simp [same]

theorem get?_replace (value : List String) :
    get? (deps.map fun row => if row.1 = name then (name, value) else row) other =
      if other = name then (deps.get? name).map fun _ => value else deps.get? other := by
  induction deps with
  | nil => simp [get?]
  | cons row deps ih =>
    rw [map_cons, get?_cons, ih]
    by_cases here : row.1 = name
    · by_cases same : other = name <;> simp [here, same]
    · by_cases same : other = name
      · simp [here, same, Ne.symm here]
      · simp [here, same]

theorem get?_insert (value : List String) : (deps.insert name value).get? other =
    if other = name then some value else deps.get? other := by
  unfold insert
  cases found : deps.get? name with
  | none =>
    rw [if_neg ((get?_none deps name).mp found), get?_concat]
    split
    · rename_i same
      rw [same, found]
      rfl
    · exact Option.or_none
  | some old =>
    have inside : name ∈ deps.keys := by
      by_contra missing
      rw [(get?_none deps name).mpr missing] at found
      cases found
    rw [if_pos inside, get?_replace, found]
    rfl

end Deps

namespace Compiler

/-- A name without blanks, commas, colons, brackets and braces. -/
def PlainName (name : String) : Prop :=
  ∀ c ∈ name.toList, c ∉ [',', ':', '[', ']', '\x7b', '\x7d'] ∧ Text.isWhitespace c = false

instance : DecidablePred PlainName := fun name => List.decidableBAll _ name.toList

def PlainRows (rows : Deps) : Prop := ∀ row ∈ rows, PlainName row.1 ∧ ∀ dep ∈ row.2, PlainName dep

instance : DecidablePred PlainRows := fun rows => List.decidableBAll _ rows

def rowText (row : String × List String) : String := row.1 ++ ":[" ++ Text.join "," row.2 ++ "]"

def dagText (rows : Deps) : String := "\x7b" ++ Text.join "," (rows.map rowText) ++ "\x7d"

/-- The map with an empty list for every dependency that is not a node. -/
def extended (rows : Deps) (name : String) : Option (List String) :=
  match rows.get? name with
  | some deps => some deps
  | none => if name ∈ rows.flatMap (·.2) then some [] else none

def closing : String → List String → List String
  | piece, [] => [piece ++ "]"]
  | piece, dep :: deps => piece :: closing dep deps

def pieces (row : String × List String) : List String :=
  closing (row.1 ++ ":[" ++ row.2.headD "") row.2.tail

theorem closing_ne_nil (piece : String) (deps : List String) : closing piece deps ≠ [] := by
  cases deps <;> exact cons_ne_nil _ _

open Text

theorem join_closing (piece : String) (deps : List String) :
    join "," (closing piece deps) = join "," (piece :: deps) ++ "]" := by
  induction deps generalizing piece with
  | nil => rfl
  | cons dep deps ih =>
    obtain ⟨first, rest, split⟩ := exists_cons_of_ne_nil (closing_ne_nil dep deps)
    rw [closing, split, join_cons_cons, ← split, ih, join_cons_cons]
    simp only [String.append_assoc]

theorem join_pieces (row : String × List String) : join "," (pieces row) = rowText row := by
  obtain ⟨name, deps⟩ := row
  rw [pieces, join_closing, rowText]
  cases deps with
  | nil => simp [join]
  | cons dep deps =>
    cases deps with
    | nil => rfl
    | cons next deps => simp [join_cons_cons, String.append_assoc]

/-- Names, and the separators of one piece. -/
def Clean (piece : String) : Prop :=
  ∀ c ∈ piece.toList, c ∉ [',', '\x7b', '\x7d'] ∧ Text.isWhitespace c = false

instance : DecidablePred Clean := fun piece => List.decidableBAll _ piece.toList

theorem PlainName.clean {name : String} (plain : PlainName name) : Clean name := by
  intro c inside
  obtain ⟨other, dark⟩ := plain c inside
  refine ⟨?_, dark⟩
  simp only [mem_cons] at other ⊢
  tauto

theorem PlainName.free {name : String} (plain : PlainName name) {c : Char}
    (special : c ∈ [',', ':', '[', ']', '\x7b', '\x7d']) : c ∉ name.toList :=
  fun inside => (plain c inside).1 special

theorem Clean.append {a b : String} (left : Clean a) (right : Clean b) : Clean (a ++ b) := by
  intro c inside
  rw [String.toList_append, mem_append] at inside
  exact inside.elim (left c) (right c)

theorem Clean.trim_eq {piece : String} (clean : Clean piece) : trim piece = piece :=
  trim_eq_self fun c inside => (clean c inside).2

theorem clean_open : Clean ":[" := by decide

theorem clean_close : Clean "]" := by decide

/-- What holds of the piece at hand and of the dependencies holds of all pieces. -/
theorem forall_closing {P : String → Prop} (close : ∀ s, P s → P (s ++ "]")) {deps : List String}
    (others : ∀ dep ∈ deps, P dep) {piece : String} (own : P piece) : ∀ part ∈ closing piece deps, P part := by
  induction deps generalizing piece with
  | nil => exact forall_mem_singleton.mpr (close piece own)
  | cons dep deps ih =>
    obtain ⟨first, later⟩ := forall_mem_cons.mp others
    exact forall_mem_cons.mpr ⟨own, ih later first⟩

theorem plain_headD {deps : List String} (plain : ∀ dep ∈ deps, PlainName dep) : PlainName (deps.headD "") := by
  cases deps with
  | nil => simp [PlainName]
  | cons dep deps => exact plain dep mem_cons_self

theorem clean_pieces {row : String × List String} (plain : PlainName row.1 ∧ ∀ dep ∈ row.2, PlainName dep) :
    ∀ part ∈ pieces row, Clean part :=
  forall_closing (fun _ clean => clean.append clean_close)
    (fun dep inside => (plain.2 dep (mem_of_mem_tail inside)).clean)
    ((plain.1.clean.append clean_open).append (plain_headD plain.2).clean)

/-- The text is cut into the pieces of its nodes, in their order. -/
theorem dagDeps_dagText {rows : Deps} (plain : PlainRows rows) (some : rows ≠ []) :
    dagDeps (dagText rows) = (rows.flatMap pieces).foldl dagSegment [] := by
  have whole : join "," (rows.map rowText) = join "," (rows.flatMap pieces) := by
    rw [join_flatMap "," pieces fun row => closing_ne_nil _ _]
    simp only [join_pieces]
  have clean : ∀ part ∈ rows.flatMap pieces, Clean part := by
    intro part member
    obtain ⟨row, inside, there⟩ := mem_flatMap.mp member
    exact clean_pieces (plain row inside) part there
  have pieces_ne : rows.flatMap pieces ≠ [] := by
    obtain ⟨row, rest, rfl⟩ := exists_cons_of_ne_nil some
    exact append_ne_nil_of_left_ne_nil (closing_ne_nil _ _) _
  rw [dagDeps, dagText, whole, trim_braced_join clean]
  congr 1
  exact split_join (fun part member inside => (clean part member ',' inside).1 (by decide)) pieces_ne

/-- What stays of a list of dependencies: its first one, if that is not empty. -/
def kept (deps : List String) : List String := if deps.headD "" = "" then [] else [deps.headD ""]

theorem segmentDeps_piece {dep close : String} (plain : PlainName dep) (ends : close = "" ∨ close = "]") :
    segmentDeps ("[" ++ (dep ++ close)) = if dep = "" then [] else [dep] := by
  have opened : '[' ∉ (dep ++ close).toList := by
    rw [String.toList_append, mem_append]
    rintro (inside | bracket)
    · exact plain.free (by decide) inside
    · rcases ends with rfl | rfl <;> exact absurd bracket (by decide)
  have front : trimStartMatches ("[" ++ (dep ++ close)) '[' = dep ++ close :=
    trimStartMatches_singleton opened
  have bracket : ']' ∉ dep.toList := plain.free (by decide)
  have back : trimEndMatches (dep ++ close) ']' = dep := by
    rcases ends with rfl | rfl
    · rw [String.append_empty, trimEndMatches_of_not_mem bracket]
    · exact trimEndMatches_singleton bracket
  rw [segmentDeps, front, back, plain.clean.trim_eq]
  by_cases none : dep = ""
  · simp [none]
  · have full : dep.isEmpty = false := by simpa using none
    simp [full, none, split_of_not_mem (plain.free (c := ',') (by decide)), plain.clean.trim_eq]

theorem dagSegment_head {row : String × List String} (plain : PlainName row.1 ∧ ∀ dep ∈ row.2, PlainName dep)
    {close : String} (ends : close = "" ∨ close = "]") (deps : Deps) :
    dagSegment deps (row.1 ++ ":[" ++ row.2.headD "" ++ close) =
      ((kept row.2).foldl Deps.orDefault deps).insert row.1 (kept row.2) := by
  have first : PlainName (row.2.headD "") := plain_headD plain.2
  have bracket : Clean close := by
    rcases ends with rfl | rfl
    · simp [Clean]
    · exact clean_close
  have clean : Clean ("[" ++ (row.2.headD "" ++ close)) :=
    Clean.append (by decide) (first.clean.append bracket)
  have whole : row.1 ++ ":[" ++ row.2.headD "" ++ close =
      row.1 ++ String.singleton ':' ++ ("[" ++ (row.2.headD "" ++ close)) := by
    have colon : ":[" = String.singleton ':' ++ "[" := rfl
    rw [colon]
    simp only [String.append_assoc]
  have dark : Clean (row.1 ++ String.singleton ':' ++ ("[" ++ (row.2.headD "" ++ close))) := by
    rw [← whole]
    exact ((plain.1.clean.append clean_open).append first.clean).append bracket
  have full : (row.1 ++ String.singleton ':' ++ ("[" ++ (row.2.headD "" ++ close))).isEmpty = false := by
    simp
  rw [whole, dagSegment, dark.trim_eq]
  simp only [full, Bool.false_eq_true, if_false,
    splitFirst_singleton (plain.1.free (c := ':') (by decide)), plain.1.clean.trim_eq, clean.trim_eq,
    segmentDeps_piece first ends]
  rfl

theorem dagSegment_keeps {part : String} (clean : Clean part) (bare : ':' ∉ part.toList) {deps : Deps}
    {name : String} {value : List String} (found : deps.get? name = some value) :
    (dagSegment deps part).get? name = some value := by
  rw [dagSegment, clean.trim_eq]
  split
  · exact found
  · rw [splitFirst_none.mpr bare]
    rw [Deps.get?_orDefault, found]
    rfl

/-- The first piece of a node has its name; there is another one only after a second dependency. -/
theorem pieces_cases (row : String × List String) (plain : PlainName row.1 ∧ ∀ dep ∈ row.2, PlainName dep) :
    ∃ close rest, pieces row = (row.1 ++ ":[" ++ row.2.headD "" ++ close) :: rest ∧
      (close = "" ∨ close = "]") ∧ (∀ part ∈ rest, ':' ∉ part.toList) ∧ (row.2.length ≤ 1 → rest = []) := by
  obtain ⟨name, deps⟩ := row
  rcases deps with _ | ⟨dep, _ | ⟨next, deps⟩⟩
  · exact ⟨"]", [], rfl, .inr rfl, forall_mem_nil _, fun _ => rfl⟩
  · exact ⟨"]", [], rfl, .inr rfl, forall_mem_nil _, fun _ => rfl⟩
  · have later := (forall_mem_cons.mp plain.2).2
    obtain ⟨second, others⟩ := forall_mem_cons.mp later
    refine ⟨"", closing next deps, ?_, .inl rfl, ?_, ?_⟩
    · rw [String.append_empty]
      rfl
    · apply forall_closing (by simp) (fun dep inside => (others dep inside).free (by decide)) (second.free (by decide))
    · intro short
      simp at short

def readRow (deps : Deps) (row : String × List String) : Deps := (pieces row).foldl dagSegment deps

section Rows

variable {row : String × List String} {rows deps : Deps} {name : String}

section

variable (plain : PlainName row.1 ∧ ∀ dep ∈ row.2, PlainName dep)
include plain

theorem readRow_found {value : List String}
    (found : (((kept row.2).foldl Deps.orDefault deps).insert row.1 (kept row.2)).get? name = some value) :
    (readRow deps row).get? name = some value := by
  obtain ⟨close, rest, cut, ends, bare, -⟩ := pieces_cases row plain
  have clean := clean_pieces plain
  rw [cut] at clean
  rw [readRow, cut, foldl_cons, dagSegment_head plain ends]
  refine List.foldlRecOn (motive := fun deps : Deps => deps.get? name = some value) _ _ found ?_
  intro deps found part there
  exact dagSegment_keeps (clean part (mem_cons_of_mem _ there)) (bare part there) found

theorem readRow_short (short : row.2.length ≤ 1) (other : name ≠ row.1) (deps : Deps) : (readRow deps row).get? name =
      (deps.get? name).or (if name ∈ kept row.2 then some [] else none) := by
  obtain ⟨close, rest, cut, ends, -, alone⟩ := pieces_cases row plain
  rw [readRow, cut, alone short, foldl_cons, foldl_nil, dagSegment_head plain ends, Deps.get?_insert,
    if_neg other, Deps.get?_foldl_orDefault]

end

theorem readRows_keeps (plain : PlainRows rows) (other : name ∉ rows.keys) {value : List String}
    (found : deps.get? name = some value) : (rows.foldl readRow deps).get? name = some value := by
  refine List.foldlRecOn (motive := fun deps : Deps => deps.get? name = some value) _ _ found ?_
  intro deps found row there
  apply readRow_found (plain row there)
  rw [Deps.get?_insert, if_neg, Deps.get?_foldl_orDefault, found]
  · rfl
  · rintro rfl
    exact other (mem_map_of_mem there)

theorem readRows_own (plain : PlainRows rows) (distinct : rows.keys.Nodup) (inside : row ∈ rows) (deps : Deps) :
    (rows.foldl readRow deps).get? row.1 = some (kept row.2) := by
  induction rows generalizing deps with
  | nil => cases inside
  | cons first rows ih =>
    obtain ⟨plain, plains⟩ := forall_mem_cons.mp plain
    obtain ⟨fresh, distinct⟩ := nodup_cons.mp distinct
    rcases mem_cons.mp inside with rfl | inside
    · exact readRows_keeps plains fresh (readRow_found plain (by rw [Deps.get?_insert, if_pos rfl]))
    · exact ih plains distinct inside _

/-- Where no node has a second dependency, the other names read are the kept ones. -/
theorem readRows_other (plain : PlainRows rows) (short : ∀ row ∈ rows, row.2.length ≤ 1)
    (other : name ∉ rows.keys) (deps : Deps) : (rows.foldl readRow deps).get? name =
      (deps.get? name).or (if name ∈ rows.flatMap (fun row => kept row.2) then some [] else none) := by
  induction rows generalizing deps with
  | nil => simp
  | cons row rows ih =>
    obtain ⟨plain, plains⟩ := forall_mem_cons.mp plain
    obtain ⟨short, shorts⟩ := forall_mem_cons.mp short
    obtain ⟨apart, others⟩ := not_or.mp (mt mem_cons.mpr other)
    rw [foldl_cons, ih plains shorts others, readRow_short plain short apart, Option.or_assoc, flatMap_cons]
    by_cases here : name ∈ kept row.2 <;> simp only [here, mem_append, true_or, false_or, if_true, if_false,
      Option.some_or, Option.none_or]

theorem kept_eq_iff (deps : List String) : kept deps = deps ↔ deps.length ≤ 1 ∧ "" ∉ deps := by
  rcases deps with _ | ⟨dep, _ | ⟨next, deps⟩⟩
  · simp [kept]
  · by_cases none : dep = "" <;> simp [kept, none, eq_comm]
  · by_cases none : dep = "" <;> simp [kept, none]

end Rows

/-- The dependency map read from the text of a map is that map, with an empty list for every other dependency, exactly
if no node has a second dependency and no dependency is the empty name. -/
theorem dagDeps_text_iff {rows : Deps} (plain : PlainRows rows) (distinct : rows.keys.Nodup) :
    (∀ name, (dagDeps (dagText rows)).get? name = extended rows name) ↔
      ∀ row ∈ rows, row.2.length ≤ 1 ∧ "" ∉ row.2 := by
  rcases eq_or_ne rows [] with rfl | some
  · simp [extended, Deps.get?, show dagDeps (dagText []) = [] by decide]
  have read : dagDeps (dagText rows) = rows.foldl readRow [] := by
    rw [dagDeps_dagText plain some, foldl_flatMap]
    rfl
  have node : ∀ row ∈ rows, extended rows row.1 = Option.some row.2 := by
    intro row inside
    rw [extended, get?_of_mem distinct inside]
  rw [read]
  constructor
  · intro faithful row inside
    have same := faithful row.1
    rw [readRows_own plain distinct inside, node row inside] at same
    exact (kept_eq_iff row.2).mp (Option.some.inj same)
  · intro single name
    have whole : ∀ row ∈ rows, kept row.2 = row.2 := fun row inside => (kept_eq_iff row.2).mpr (single row inside)
    by_cases inside : name ∈ rows.keys
    · obtain ⟨row, member, rfl⟩ := mem_map.mp inside
      rw [readRows_own plain distinct member, node row member, whole row member]
    · rw [readRows_other plain (fun row member => (single row member).1) inside, extended,
        (Deps.get?_none rows name).mpr inside, flatMap_congr whole]
      rfl

/-- The map of the DAG `a -> b` is read as it is, with `b` as a node. -/
theorem dagDeps_single_edge : PlainRows [("a", ["b"])] ∧
    ∀ name, (dagDeps (dagText [("a", ["b"])])).get? name = extended [("a", ["b"])] name := by
  have plain : PlainRows [("a", ["b"])] := by decide
  exact ⟨plain, (dagDeps_text_iff plain (by decide)).mpr (by decide)⟩

/-- A node with two dependencies keeps the first one, and the second becomes a node with its bracket. -/
theorem dagDeps_second_lost : PlainRows [("a", ["b", "c"])] ∧ dagText [("a", ["b", "c"])] = "\x7ba:[b,c]\x7d" ∧
    dagDeps (dagText [("a", ["b", "c"])]) = [("b", []), ("a", ["b"]), ("c]", [])] ∧
    extended [("a", ["b", "c"])] "a" = some ["b", "c"] := by
  decide

end Compiler

end FlowRulZ
