import FlowRulZ.Lib.Text

/-! # Paths

Paths of files by their elements, without those that a path is cleaned of: empty ones, `.` and
`..`.
-/

open List

namespace Paths

/-- One more element behind those of a clean path, of which the last comes first. -/
def push (rooted : Bool) (path : List String) (element : String) : List String :=
  if element = "" ∨ element = "." then path
  else if element = ".." then
    match path with
    | [] => if rooted then [] else [".."]
    | last :: rest => if last = ".." then ".." :: path else rest
  else element :: path

def clean (rooted : Bool) (elements : List String) : List String :=
  (elements.foldl (push rooted) []).reverse

def isRooted (dir : String) : Bool := dir.toList.head? == some '/'

def ofDir (dir : String) : List String := clean (isRooted dir) (Text.split dir '/')

/-- A directory and a name in it, which may have elements of its own. -/
def join (dir name : String) : List String :=
  clean (isRooted dir) (Text.split dir '/' ++ Text.split name '/')

structure Plain (name : String) : Prop where
  single : '/' ∉ name.toList
  nonempty : name ≠ ""
  not_dot : name ≠ "."
  not_dots : name ≠ ".."

theorem join_plain {name : String} (plain : Plain name) (dir : String) : join dir name = ofDir dir ++ [name] := by
  have whole : Text.split name '/' = [name] := by
    have pieces : ∀ piece ∈ [name], '/' ∉ piece.toList := by simpa using plain.single
    exact Text.split_join pieces (cons_ne_nil _ _)
  have pushed (path : List String) : push (isRooted dir) path name = name :: path := by
    simp [push, plain.nonempty, plain.not_dot, plain.not_dots]
  rw [join, ofDir, clean, clean, whole, foldl_append, foldl_cons, foldl_nil, pushed, reverse_cons]

theorem join_injective {dir name name' : String} (plain : Plain name) (plain' : Plain name')
    (same : join dir name = join dir name') : name = name' := by
  rw [join_plain plain, join_plain plain'] at same
  simpa using same

end Paths
