import FlowRulZ.Executor.Fields
import FlowRulZ.Executor.Gate

/-! # Field paths

Map expressions read and assign fields of the body by dotted paths.  An assignment makes the
objects on its path that are missing.
-/

namespace FlowRulZ

open List Json.Fields

def resolveParts (path : String) : Json → List String → Except String Json
  | current, [] => .ok current
  | .obj fields, part :: rest =>
    match Json.Fields.get? fields part with
    | some value => resolveParts path value rest
    | none => .error s!"FieldNotFound: path segment '{part}' not found in '{path}'"
  | _, part :: _ =>
    .error s!"FieldNotFound: cannot navigate into non-object at path '{path}' segment '{part}'"

def resolveField (body : Json) (path : String) : Except String Json :=
  resolveParts path body (Text.split path '.')

def setParts (value : Json) : Json → List String → Except String Json
  | _, [] => .ok value
  | .obj fields, part :: rest =>
    match setParts value ((Json.Fields.get? fields part).getD (.obj [])) rest with
    | .ok child => .ok (.obj (Json.Fields.insert part child fields))
    | .error e => .error e
  | _, [_] => .error "target is not an object"
  | _, part :: _ => .error ("cannot set field in non-object at " ++ part)

def setField (body : Json) (path : String) (value : Json) : Except String Json :=
  match Text.split path '.' with
  | [] => .error "empty path"
  | [part] =>
    match body with
    | .obj fields => .ok (.obj (Json.Fields.insert part value fields))
    | _ => .error "root is not an object"
  | parts => setParts value body parts

variable {body body' value child : Json} {fields : Json.Fields} {part path : String} {parts other rest : List String}

theorem Json.atPath_cons : Json.atPath (.obj fields) (part :: rest) = (fields.get? part).bind (·.atPath rest) := by
  rw [Json.atPath]
  cases fields.get? part <;> rfl

theorem resolveParts_toOption (path : String) (body : Json) (parts : List String) :
    (resolveParts path body parts).toOption = body.atPath parts := by
  induction parts generalizing body with
  | nil =>
    cases body <;> rfl
  | cons part rest ih =>
    cases body with
    | obj fields =>
      rw [Json.atPath_cons, resolveParts]
      cases get? fields part with
      | none => rfl
      | some value => exact ih value
    | _ => rfl

theorem setParts_cons : setParts value body (part :: rest) = .ok body' ↔ ∃ fields child, body = .obj fields ∧
      setParts value ((get? fields part).getD (.obj [])) rest = .ok child ∧
      body' = .obj (insert part child fields) := by
  cases body with
  | obj fields =>
    rw [setParts]
    cases set : setParts value ((get? fields part).getD (.obj [])) rest with
    | error e => simp [set]
    | ok child =>
      simp only [Except.ok.injEq, Json.obj.injEq]
      constructor
      · rintro rfl
        exact ⟨fields, child, rfl, set, rfl⟩
      · rintro ⟨_, child', rfl, set', rfl⟩
        rw [set] at set'
        rw [Except.ok.inj set']
  | _ => cases rest <;> simp [setParts]

/-- An assignment fails at a value on its path that is no object, and only there. -/
theorem setParts_error : (∃ e, setParts value body parts = .error e) ↔
    ∃ before found, before <+: parts ∧ before ≠ parts ∧ body.atPath before = some found ∧ found.isObject = false := by
  induction parts generalizing body with
  | nil =>
    constructor
    · rintro ⟨e, failed⟩
      cases body <;> cases failed
    · rintro ⟨before, found, starts, proper, -⟩
      exact absurd (prefix_nil.mp starts) proper
  | cons part rest ih =>
    by_cases scalar : body.isObject = false
    · constructor
      · intro _
        exact ⟨[], body, nil_prefix, (cons_ne_nil _ _).symm, by cases body <;> rfl, scalar⟩
      · intro _
        cases body with
        | obj fields => cases scalar
        | _ => cases rest <;> exact ⟨_, rfl⟩
    · obtain ⟨fields, rfl⟩ := Json.exists_fields (Bool.not_eq_false _ ▸ scalar)
      have below : (∃ e, setParts value (.obj fields) (part :: rest) = .error e) ↔
          ∃ e, setParts value ((get? fields part).getD (.obj [])) rest = .error e := by
        rw [setParts]
        cases setParts value ((get? fields part).getD (.obj [])) rest <;> simp
      rw [below, ih]
      constructor
      · rintro ⟨before, found, starts, proper, there, leaf⟩
        refine ⟨part :: before, found, prefix_cons_inj part |>.mpr starts, ?_, ?_, leaf⟩
        · exact fun same => proper (List.cons.inj same).2
        · rw [Json.atPath_cons]
          cases known : get? fields part with
          | some child => simpa [known] using there
          | none =>
            rw [known] at there
            -- nothing but the new object itself is there
            cases before with
            | nil =>
              cases there
              cases leaf
            | cons _ _ => cases there
      · rintro ⟨before, found, starts, proper, there, leaf⟩
        cases before with
        | nil =>
          cases there
          cases leaf
        | cons part' before =>
          obtain ⟨rfl, begins⟩ := cons_prefix_cons.mp starts
          rw [Json.atPath_cons] at there
          obtain ⟨child, known, there⟩ := Option.bind_eq_some_iff.mp there
          refine ⟨before, found, begins, fun same => proper (congrArg _ same), ?_, leaf⟩
          rw [known]
          exact there

theorem atPath_setParts (set : setParts value body parts = .ok body') : body'.atPath parts = some value := by
  induction parts generalizing body body' with
  | nil =>
    cases body <;> cases set <;> cases value <;> rfl
  | cons part rest ih =>
    obtain ⟨fields, child, rfl, below, rfl⟩ := setParts_cons.mp set
    rw [Json.atPath_cons, get?_insert_self]
    exact ih below

/-- Paths apart from the assigned one find what they found; if the objects on it were there before, errors are the
same as well. -/
theorem setParts_other (path : String) (set : setParts value body parts = .ok body') (apart : ¬ other <+: parts)
    (apart' : ¬ parts <+: other) : body'.atPath other = body.atPath other ∧
      ((∀ before, before <+: parts → before ≠ parts → body.atPath before ≠ none) →
        resolveParts path body' other = resolveParts path body other) := by
  induction parts generalizing body body' other with
  | nil => exact absurd nil_prefix apart'
  | cons part rest ih =>
    obtain ⟨fields, child, rfl, below, rfl⟩ := setParts_cons.mp set
    cases other with
    | nil => exact absurd nil_prefix apart
    | cons part' other =>
      rw [Json.atPath_cons, Json.atPath_cons, resolveParts, resolveParts]
      by_cases same : part' = part
      · subst same
        rw [prefix_cons_inj] at apart apart'
        obtain ⟨found, errors⟩ := ih below apart apart'
        rw [get?_insert_self, Option.bind_some, found]
        cases old : get? fields part' with
        | some old' =>
          rw [old] at errors
          refine ⟨rfl, fun there => errors fun before starts proper => ?_⟩
          have inside := there (part' :: before) (prefix_cons_inj part' |>.mpr starts) fun same =>
            proper (List.cons.inj same).2
          rwa [Json.atPath_cons, old] at inside
        | none =>
          constructor
          · cases other with
            | nil => exact absurd nil_prefix apart
            | cons _ _ => rfl
          · intro there
            have some : rest ≠ [] := fun none => apart' (none ▸ nil_prefix)
            have known := there [part'] (prefix_cons_inj part' |>.mpr nil_prefix) fun same =>
              some (List.cons.inj same).2.symm
            simp [Json.atPath_cons, old] at known
      · rw [get?_insert_other same]
        exact ⟨rfl, fun _ => rfl⟩

theorem setParts_setParts (again : Json) (set : setParts value body parts = .ok body') :
    setParts again body' parts = setParts again body parts := by
  induction parts generalizing body body' with
  | nil =>
    cases body <;> cases body' <;> rfl
  | cons part rest ih =>
    obtain ⟨fields, child, rfl, below, rfl⟩ := setParts_cons.mp set
    rw [setParts, setParts, get?_insert_self, Option.getD_some, ih below]
    cases setParts again ((get? fields part).getD (.obj [])) rest with
    | error e => rfl
    | ok new => simp only [insert_insert]

theorem setField_ok : setField body path value = .ok body' ↔ setParts value body (Text.split path '.') = .ok body' := by
  unfold setField
  split
  · rename_i empty
    exact absurd empty (by simp [Text.split])
  · rename_i part one
    rw [one]
    cases body <;> simp [setParts]
  · rfl

theorem setField_error : (∃ e, setField body path value = .error e) ↔
    ∃ e, setParts value body (Text.split path '.') = .error e := by
  have same (after : Json) : setField body path value = .ok after ↔ _ := setField_ok
  cases set : setField body path value <;> cases parts : setParts value body (Text.split path '.') <;>
    simp [set, parts] at same ⊢

theorem resolveField_ok : resolveField body path = .ok value ↔ body.atPath (Text.split path '.') = some value := by
  rw [← resolveParts_toOption path, resolveField]
  cases resolveParts path body (Text.split path '.') <;> simp [Except.toOption]

/-- Assignment to a path is a lens: the path then has the value, paths apart from it find what they found, a second
assignment replaces the first one, and it fails only at a value on the path that is no object. A path that finds nothing
may name another missing part than before, unless all objects on the assigned path were there. -/
theorem setField_lens (body : Json) (path : String) (value : Json) :
    (∀ body', setField body path value = .ok body' → resolveField body' path = .ok value ∧
      (∀ other, ¬ Text.split other '.' <+: Text.split path '.' → ¬ Text.split path '.' <+: Text.split other '.' →
        (∀ found, resolveField body' other = .ok found ↔ resolveField body other = .ok found) ∧
        ((∀ before, before <+: Text.split path '.' → before ≠ Text.split path '.' → body.atPath before ≠ none) →
          resolveField body' other = resolveField body other)) ∧
      ∀ again, setField body' path again = setField body path again) ∧
    ((∃ e, setField body path value = .error e) ↔
      ∃ before found, before <+: Text.split path '.' ∧ before ≠ Text.split path '.' ∧
        body.atPath before = some found ∧ found.isObject = false) := by
  refine ⟨?_, setField_error.trans setParts_error⟩
  intro body' set
  have parts := setField_ok.mp set
  refine ⟨resolveField_ok.mpr (atPath_setParts parts), ?_, ?_⟩
  · intro other apart apart'
    obtain ⟨same, errors⟩ := setParts_other other parts apart apart'
    exact ⟨fun found => by rw [resolveField_ok, resolveField_ok, same], errors⟩
  · intro again
    have same := setParts_setParts again parts
    cases second : setParts again body (Text.split path '.') with
    | ok new =>
      rw [second] at same
      rw [setField_ok.mpr same, setField_ok.mpr second]
    | error e =>
      -- whether an assignment fails does not depend on the value
      have failed : ∃ e, setParts value body (Text.split path '.') = .error e :=
        setParts_error.mpr (setParts_error.mp ⟨e, second⟩)
      rw [parts] at failed
      obtain ⟨e, failed⟩ := failed
      cases failed

/-- An assignment to `a.b` makes the object `a`, so that `a.c` then misses another part. -/
theorem setField_moves_error :
    let path := Text.split "a.b" '.'
    let other := Text.split "a.c" '.'
    let body' := Json.obj [("a", .obj [("b", .null)])]
    ¬ other <+: path ∧ ¬ path <+: other ∧ setField (.obj []) "a.b" .null = .ok body' ∧
      resolveField (.obj []) "a.c" = .error "FieldNotFound: path segment 'a' not found in 'a.c'" ∧
      resolveField body' "a.c" = .error "FieldNotFound: path segment 'c' not found in 'a.c'" :=
  ⟨by decide +kernel, by decide +kernel, rfl, rfl, rfl⟩

end FlowRulZ
