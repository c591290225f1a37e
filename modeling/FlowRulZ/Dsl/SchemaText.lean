import FlowRulZ.Dsl.Schema
import FlowRulZ.Executor.Json
import FlowRulZ.Lib.Slices

/-! # The text of a schema

`compile_schema` puts the text of a type in lower case before it takes the variants of an enum out of
it.  So variants with capital letters come back changed.
-/

namespace FlowRulZ

open List String Text FieldSchema

def ResolvedType.text : ResolvedType → String
  | .string => "string"
  | .integer => "int"
  | .float => "float"
  | .boolean => "bool"
  | .object => "object"
  | .array => "array"
  | .enum variants => "enum[" ++ Text.join "|" variants ++ "]"
  | .null => "null"
  | .any => "any"

def FieldSchema.text (field : FieldSchema) : String :=
  (if field.required then "!" else "") ++ Text.join ":" [field.name, field.type.text]

def Schema.text (schema : Schema) : String :=
  "\x7b" ++ Text.join "," (schema.fields.map FieldSchema.text) ++ "\x7d"

def delimiters : List Char := [',', ':', '|', '[', ']', '\x7b', '\x7d']

/-- A name or a variant: no delimiters and no blanks. -/
def PlainWord (word : String) : Prop := ∀ c ∈ word.toList, c ∉ delimiters ∧ Text.isWhitespace c = false

theorem PlainWord.free {word : String} (plain : PlainWord word) {c : Char} (special : c ∈ delimiters) :
    c ∉ word.toList :=
  fun inside => (plain c inside).1 special

theorem PlainWord.trim_eq {word : String} (plain : PlainWord word) : Text.trim word = word :=
  trim_eq_self fun c inside => (plain c inside).2

instance : DecidablePred PlainWord := fun word => List.decidableBAll _ word.toList

structure FieldSchema.Plain (field : FieldSchema) : Prop where
  name : PlainWord field.name
  variants : ∀ variants, field.type = .enum variants → variants ≠ [] ∧ ∀ v ∈ variants, PlainWord v

structure FieldSchema.Kept (field : FieldSchema) (compiler : Compiler) : Prop where
  named : field.name ≠ ""
  marked : field.required = false → Text.startsWith field.name "!" = false
  variants : ∀ variants, field.type = .enum variants → ∀ v ∈ variants, v ≠ "" ∧ compiler.toLowercase v = v

namespace Compiler

variable (self : Compiler)

def Settled (c : Char) : Prop := self.toLowercase (String.singleton c) = String.singleton c

/-- What `str::to_lowercase` keeps to: all that comes out of it is in lower case, and what is in lower case stays as it
is. Of the first 128 characters only the capital letters are not. -/
structure LowersCase (compiler : Compiler) : Prop where
  settles : ∀ s, ∀ c ∈ (compiler.toLowercase s).toList, compiler.Settled c
  keeps : ∀ s, (∀ c ∈ s.toList, compiler.Settled c) → compiler.toLowercase s = s
  ascii : ∀ c : Char, c.toNat < 128 → c.isUpper = false → compiler.Settled c

variable {self}

theorem LowersCase.of_ascii (lowers : self.LowersCase) {s : String}
    (small : s.toList.all fun c => c.toNat < 128 && !c.isUpper) : ∀ c ∈ s.toList, self.Settled c := by
  intro c inside
  have fine := all_eq_true.mp small c inside
  simp only [Bool.and_eq_true, decide_eq_true_eq, Bool.not_eq_true'] at fine
  exact lowers.ascii c fine.1 fine.2

theorem toLower_eq_self {c : Char} (small : c.isUpper = false) : c.toLower = c :=
  dif_neg (of_decide_eq_false small)

theorem isUpper_toLower (c : Char) : c.toLower.isUpper = false := by
  by_cases capital : c.isUpper = true
  · have range := of_decide_eq_true capital
    have lower : c.toLower.val = c.val + 32 := by
      delta Char.toLower
      rw [dif_pos range]
      rfl
    delta Char.isUpper
    simp only [lower, decide_eq_false_iff_not] at range ⊢
    have low : 65 ≤ c.val.toNat := range.1
    have high : c.val.toNat ≤ 90 := range.2
    rintro ⟨-, above⟩
    have sum : (c.val + 32).toNat = c.val.toNat + 32 := by
      rw [UInt32.toNat_add]
      change (_ + 32) % 2 ^ 32 = _
      omega
    have : (c.val + 32).toNat ≤ 90 := above
    omega
  · rw [toLower_eq_self (Bool.not_eq_true _ ▸ capital)]
    exact Bool.not_eq_true _ ▸ capital

theorem ascii_eq : ascii = { ascii with toLowercase := fun s => String.ofList (s.toList.map Char.toLower) } := by
  have lower : String.map Char.toLower = fun s => String.ofList (s.toList.map Char.toLower) := by
    funext s
    apply toList_injective
    rw [toList_map, toList_ofList]
  simp only [ascii, lower]

theorem settled_ascii {c : Char} (small : c.isUpper = false) : ascii.Settled c := by
  apply toList_injective
  simp [ascii, toList_map, toLower_eq_self small]

theorem lowersCase_ascii : ascii.LowersCase where
  settles s c inside := by
    simp only [ascii, toList_map, mem_map] at inside
    obtain ⟨d, -, rfl⟩ := inside
    exact settled_ascii (isUpper_toLower d)
  keeps s settled := by
    apply toList_injective
    rw [ascii, toList_map]
    refine (map_congr_left fun c inside => ?_).trans (map_id _)
    have same := congrArg String.toList (settled c inside)
    simpa [ascii, toList_map] using same
  ascii c _ small := settled_ascii small

/-- The type that its text, in lower case, stands for. -/
def readType (name typeStr : String) : Except CompileError ResolvedType :=
  if Text.startsWith typeStr "enum[" && Text.endsWith typeStr "]" then
    let variants := ((Text.split (Text.interior typeStr 5) '|').map Text.trim).filter fun v => !v.isEmpty
    if variants.isEmpty then .error (.schemaParseError ("empty enum variants for field '" ++ name ++ "'"))
    else .ok (.enum variants)
  else
    match scalarType typeStr with
    | some type => .ok type
    | none => .error (.schemaParseError ("unknown type '" ++ typeStr ++ "' for field '" ++ name ++ "'"))

theorem readType_enum {name : String} {variants : List String} (some : variants ≠ [])
    (plain : ∀ v ∈ variants, PlainWord v) (filled : ∀ v ∈ variants, v ≠ "") :
    readType name (ResolvedType.enum variants).text = .ok (.enum variants) := by
  have starts : Text.startsWith (ResolvedType.enum variants).text "enum[" = true :=
    startsWith_iff.mpr ⟨join "|" variants ++ "]", append_assoc⟩
  have ends : Text.endsWith (ResolvedType.enum variants).text "]" = true := Text.endsWith_iff.mpr ⟨_, rfl⟩
  have inside : interior (ResolvedType.enum variants).text 5 = join "|" variants :=
    interior_between "enum[" (join "|" variants) ']'
  have pieces : Text.split (Text.join "|" variants) '|' = variants :=
    Text.split_join (fun v member => (plain v member).free (by decide)) some
  have trimmed : variants.map Text.trim = variants := by
    refine (map_congr_left fun v member => ?_).trans (map_id _)
    exact (plain v member).trim_eq
  have all : variants.filter (fun v => !v.isEmpty) = variants := by
    refine filter_eq_self.mpr fun v member => ?_
    simpa using filled v member
  rw [readType, starts, ends, inside, pieces, trimmed, all]
  simp [some]

theorem LowersCase.readType_variants (lowers : self.LowersCase) {name text : String} {variants : List String}
    (read : readType name (self.toLowercase text) = .ok (.enum variants)) :
    ∀ v ∈ variants, v ≠ "" ∧ ∀ c ∈ v.toList, self.Settled c := by
  unfold readType at read
  split_ifs at read with enum
  · dsimp only at read
    split_ifs at read
    obtain rfl := ResolvedType.enum.inj (Except.ok.inj read)
    intro v member
    obtain ⟨piece, filled⟩ := mem_filter.mp member
    obtain ⟨piece, cut, rfl⟩ := mem_map.mp piece
    refine ⟨by simpa using filled, fun c inside => ?_⟩
    have there := mem_of_mem_interior (mem_of_mem_split cut (mem_of_mem_trim inside))
    exact lowers.settles _ c there
  · unfold scalarType at read
    split at read
    · rename_i scalar
      split at scalar <;> cases scalar <;> cases read
    · cases read

variable {field : FieldSchema}

theorem text_clean (plain : field.Plain) :
    ∀ c ∈ field.type.text.toList, c ∉ [',', ':', '\x7b', '\x7d'] ∧ isWhitespace c = false := by
  cases spelled : field.type with
  | enum variants =>
    intro c inside
    rw [ResolvedType.text, toList_append, toList_append, mem_append, mem_append] at inside
    rcases inside with (front | middle) | last
    · revert c
      exact forall_mem_of_all (by decide)
    · rcases mem_join middle with bar | ⟨v, member, there⟩
      · obtain rfl : c = '|' := by simpa using bar
        decide
      · obtain ⟨other, dark⟩ := (plain.variants variants spelled).2 v member c there
        have among : [',', ':', '\x7b', '\x7d'] ⊆ delimiters := by decide
        exact ⟨fun special => other (among special), dark⟩
    · revert c
      exact forall_mem_of_all (by decide)
  | _ => exact forall_mem_of_all (by decide)

theorem join_clean (plain : field.Plain) : ∀ c ∈ (join ":" [field.name, field.type.text]).toList,
      c ∉ [',', '\x7b', '\x7d'] ∧ isWhitespace c = false := by
  intro c inside
  rcases mem_join inside with colon | ⟨part, member, there⟩
  · obtain rfl : c = ':' := by simpa using colon
    decide
  · rcases mem_pair.mp member with rfl | rfl
    · obtain ⟨other, dark⟩ := plain.name c there
      have among : [',', '\x7b', '\x7d'] ⊆ delimiters := by decide
      exact ⟨fun special => other (among special), dark⟩
    · obtain ⟨other, dark⟩ := text_clean plain c there
      have among : [',', '\x7b', '\x7d'] ⊆ [',', ':', '\x7b', '\x7d'] := by decide
      exact ⟨fun special => other (among special), dark⟩

theorem field_clean (plain : field.Plain) :
    ∀ c ∈ field.text.toList, c ∉ [',', '\x7b', '\x7d'] ∧ isWhitespace c = false := by
  intro c inside
  rw [text, toList_append, mem_append] at inside
  rcases inside with mark | later
  · split_ifs at mark
    · obtain rfl : c = '!' := by simpa using mark
      decide
    · cases mark
  · exact join_clean plain c later

theorem field_ne_empty (field : FieldSchema) : field.text ≠ "" := by
  intro empty
  have none := congrArg String.toList empty
  simp [text, Text.join] at none

theorem startsWith_mark (field : FieldSchema) :
    Text.startsWith field.text "!" = (field.required || Text.startsWith field.name "!") := by
  rw [Bool.eq_iff_iff, Bool.or_eq_true, startsWith_iff, startsWith_iff, text]
  cases field.required with
  | true => simp only [if_true, true_or, iff_true]; exact ⟨_, rfl⟩
  | false =>
    simp only [Bool.false_eq_true, false_or]
    constructor
    · rintro ⟨rest, whole⟩
      have chars := congrArg String.toList whole
      cases name : field.name.toList with
      | nil => simp [Text.join, name] at chars
      | cons c later =>
        have first : c = '!' := by
          simp only [Text.join, toList_append, name] at chars
          exact (List.cons.inj chars).1
        refine ⟨String.ofList later, toList_injective ?_⟩
        simp [name, first]
    · rintro ⟨rest, whole⟩
      exact ⟨rest ++ ":" ++ field.type.text, by simp [Text.join, whole, String.append_assoc]⟩

theorem compileField_text (plain : field.Plain)
    (marked : field.required = false → Text.startsWith field.name "!" = false) :
    self.compileField field.text =
      if field.name = "" then .error (.schemaParseError ("invalid field spec: '" ++ field.text ++ "'"))
      else (readType field.name (self.toLowercase field.type.text)).map fun type =>
        ⟨field.name, type, field.required⟩ := by
  have mark : Text.startsWith field.text "!" = field.required := by
    rw [startsWith_mark]
    cases required : field.required with
    | true => rfl
    | false => exact marked required
  have rest : (if field.required = true then String.ofList (field.text.toList.drop 1) else field.text) =
      join ":" [field.name, field.type.text] := by
    rw [text]
    cases field.required <;> simp
  have parts : Text.split (Text.join ":" [field.name, field.type.text]) ':' = [field.name, field.type.text] := by
    refine split_join ?_ (cons_ne_nil _ _)
    intro part member
    rcases mem_pair.mp member with rfl | rfl
    · exact plain.name.free (by decide)
    · exact fun inside => (text_clean plain _ inside).1 (by decide)
  have typed : field.type.text.isEmpty = false := by
    cases field.type <;> simp [ResolvedType.text]
  have trimmed : Text.trim field.type.text = field.type.text :=
    Text.trim_eq_self fun c inside => (text_clean plain c inside).2
  unfold compileField
  simp only [mark, rest, parts, typed, trimmed, plain.name.trim_eq, Bool.or_false, String.isEmpty_iff]
  by_cases empty : field.name = ""
  · rw [if_pos empty, if_pos empty]
  · rw [readType]
    dsimp only
    split_ifs
    · rfl
    · rfl
    · cases scalarType (self.toLowercase field.type.text) <;> rfl

theorem compileField_required {seg : String} (compiled : self.compileField seg = .ok field) :
    field.required = Text.startsWith seg "!" := by
  unfold compileField at compiled
  dsimp only at compiled
  split at compiled
  · split_ifs at compiled
    · cases compiled
      rfl
    · split at compiled
      · cases compiled
        rfl
      · cases compiled
  · cases compiled

theorem LowersCase.type_text (lowers : self.LowersCase) (kept : field.Kept self) :
    self.toLowercase field.type.text = field.type.text := by
  apply lowers.keeps
  cases spelled : field.type with
  | enum variants =>
    intro c inside
    rw [ResolvedType.text, toList_append, toList_append, mem_append, mem_append] at inside
    rcases inside with (front | middle) | last
    · exact lowers.of_ascii (s := "enum[") (by decide) c front
    · rcases mem_join middle with bar | ⟨v, member, there⟩
      · exact lowers.of_ascii (s := "|") (by decide) c bar
      · have settled := lowers.settles v
        rw [(kept.variants variants spelled v member).2] at settled
        exact settled c there
    · exact lowers.of_ascii (s := "]") (by decide) c last
  | _ => exact lowers.of_ascii (by decide)

theorem LowersCase.compileField_iff (lowers : self.LowersCase) (plain : field.Plain) :
    self.compileField field.text = .ok field ↔ field.Kept self := by
  constructor
  · intro compiled
    have marked : field.required = false → Text.startsWith field.name "!" = false := by
      intro optional
      -- the mark of the name would be taken for the mark of the field
      have mark := compileField_required compiled
      rw [startsWith_mark, optional] at mark
      exact mark.symm
    rw [compileField_text plain marked] at compiled
    split_ifs at compiled with empty
    refine ⟨empty, marked, ?_⟩
    intro variants spelled v member
    cases read : readType field.name (self.toLowercase field.type.text) with
    | error e =>
      rw [read] at compiled
      cases compiled
    | ok type =>
      rw [read] at compiled
      have typed : type = .enum variants := (congrArg FieldSchema.type (Except.ok.inj compiled)).trans spelled
      obtain ⟨filled, settled⟩ := lowers.readType_variants (typed ▸ read) v member
      exact ⟨filled, lowers.keeps v settled⟩
  · intro kept
    have read : readType field.name field.type.text = .ok field.type := by
      cases spelled : field.type with
      | enum variants =>
        obtain ⟨some, plain⟩ := plain.variants variants spelled
        exact readType_enum some plain fun v member => (kept.variants variants spelled v member).1
      | _ => rfl
    rw [compileField_text plain kept.marked, if_neg kept.named, lowers.type_text kept, read]
    rfl

theorem compileFields_text {fields : List FieldSchema} (plain : ∀ field ∈ fields, field.Plain) :
    self.compileFields (fields.map text) = .ok fields ↔ ∀ field ∈ fields, self.compileField field.text = .ok field := by
  induction fields with
  | nil => exact ⟨fun _ => nofun, fun _ => rfl⟩
  | cons field fields ih =>
    obtain ⟨first, later⟩ := forall_mem_cons.mp plain
    have trimmed : Text.trim field.text = field.text :=
      Text.trim_eq_self fun c inside => (field_clean first c inside).2
    have filled : field.text.isEmpty = false := by simpa using field_ne_empty field
    rw [forall_mem_cons, ← ih later, map_cons, compileFields_cons]
    simp only [trimmed, filled, Bool.false_eq_true, if_false]
    cases self.compileField field.text with
    | error e => simp only [reduceCtorEq, false_and]
    | ok read =>
      cases self.compileFields (fields.map FieldSchema.text) with
      | error e => simp only [reduceCtorEq, and_false]
      | ok more => simp only [Except.ok.injEq, List.cons.injEq]

theorem compileSchema_text {schema : Schema} (plain : ∀ field ∈ schema.fields, field.Plain) :
    self.compileSchema schema.text = .ok schema ↔
      schema.fields ≠ [] ∧ ∀ field ∈ schema.fields, self.compileField field.text = .ok field := by
  obtain ⟨fields⟩ := schema
  have clean : ∀ text ∈ fields.map FieldSchema.text, ∀ c ∈ text.toList,
      c ∉ [',', '\x7b', '\x7d'] ∧ isWhitespace c = false := by
    rw [forall_mem_map]
    exact fun field listed => field_clean (plain field listed)
  rw [compileSchema, Schema.text, trim_braced_join clean]
  rcases eq_or_ne fields [] with rfl | some
  · simp [Text.join]
  have filled : (join "," (fields.map text)).isEmpty = false := by
    obtain ⟨field, rest, rfl⟩ := exists_cons_of_ne_nil some
    obtain ⟨c, there⟩ := exists_mem_of_ne_nil field.text.toList (by simpa using field_ne_empty field)
    have inside : c ∈ (join "," ((field :: rest).map text)).toList :=
      mem_join_of_mem mem_cons_self there
    cases empty : (join "," ((field :: rest).map text)).isEmpty with
    | false => rfl
    | true =>
      rw [isEmpty_iff.mp empty] at inside
      cases inside
  have pieces : Text.split (Text.join "," (fields.map text)) ',' = fields.map text := by
    refine Text.split_join ?_ (by simpa using some)
    exact fun text member inside => (clean text member _ inside).1 (by decide)
  rw [← compileFields_text plain, pieces]
  simp only [filled]
  cases self.compileFields (fields.map text) <;> simp [some]

/-- The schema comes back from its text, and what comes back admits just the variants as they are written for an enum,
if all other fields are right. -/
structure Survives (compiler : Compiler) (schema : Schema) : Prop where
  fields : compiler.compileSchema schema.text = .ok schema
  enums : ∀ read, compiler.compileSchema schema.text = .ok read → ∀ field ∈ schema.fields,
    ∀ variants, field.type = .enum variants → ∀ (host : Host) (body : Json.Fields) (value : Json),
      body.get? field.name = some value →
      (∀ other ∈ schema.fields, other ≠ field → other.Admits (body.get? other.name)) →
      (read.isValid host (.obj body) = .ok () ↔ ∃ v ∈ variants, value = .str v)

theorem check_enum (variants : List String) (value : Json) :
    (ResolvedType.enum variants).check value = true ↔ ∃ v ∈ variants, value = .str v := by
  cases value <;> simp [ResolvedType.check, eq_comm]

/-- A schema survives its text exactly if it has fields, no name is empty or looks like a mark, and all variants are in
lower case and not empty. -/
theorem survives_iff (lowers : self.LowersCase) {schema : Schema} (plain : ∀ field ∈ schema.fields, field.Plain) :
    self.Survives schema ↔ schema.fields ≠ [] ∧ ∀ field ∈ schema.fields, field.Kept self := by
  have back : self.compileSchema schema.text = .ok schema ↔
      schema.fields ≠ [] ∧ ∀ field ∈ schema.fields, field.Kept self := by
    rw [compileSchema_text plain]
    refine and_congr_right fun _ => forall₂_congr fun field listed => ?_
    exact lowers.compileField_iff (plain field listed)
  refine ⟨fun survives => back.mp survives.fields, fun kept => ⟨back.mpr kept, ?_⟩⟩
  intro read compiled field listed variants spelled host body value found others
  obtain rfl : schema = read := Except.ok.inj ((back.mpr kept).symm.trans compiled)
  rw [Schema.isValid_iff, ← check_enum, ← spelled]
  constructor
  · intro valid
    have admitted := valid field listed
    rwa [found] at admitted
  · intro fits other listed'
    by_cases same : other = field
    · rw [same, found]
      exact fits
    · exact others other listed' same

/-- An optional name and a colour in lower case. -/
theorem survives_lower : ascii.Survives ⟨[⟨"name", .string, false⟩, ⟨"color", .enum ["red", "green"], true⟩]⟩ := by
  refine (survives_iff lowersCase_ascii ?_).mpr ⟨cons_ne_nil _ _, ?_⟩
  · intro field listed
    rcases mem_pair.mp listed with rfl | rfl
    · exact ⟨by decide, by simp⟩
    · refine ⟨by decide, fun variants same => ?_⟩
      obtain rfl := ResolvedType.enum.inj same
      decide
  · intro field listed
    rcases mem_pair.mp listed with rfl | rfl
    · exact ⟨by decide, by decide, by simp⟩
    · refine ⟨by decide, by decide, fun variants same v member => ?_⟩
      obtain rfl := ResolvedType.enum.inj same
      have fine : ∀ v ∈ ["red", "green"], v ≠ "" ∧ (v.toList.all fun c => c.toNat < 128 && !c.isUpper) := by decide
      exact ⟨(fine v member).1, lowersCase_ascii.keeps v (lowersCase_ascii.of_ascii (fine v member).2)⟩

/-- A variant with a capital letter comes back without it, and is then refused. -/
theorem capital_lost :
    ascii.compileSchema (Schema.text ⟨[⟨"color", .enum ["Red"], true⟩]⟩) = .ok ⟨[⟨"color", .enum ["red"], true⟩]⟩ ∧
      Schema.isValid Host.mute ⟨[⟨"color", .enum ["red"], true⟩]⟩ (.obj [("color", .str "Red")]) ≠ .ok () ∧
      ¬ ascii.Survives ⟨[⟨"color", .enum ["Red"], true⟩]⟩ := by
  have read : ascii.compileSchema (Schema.text ⟨[⟨"color", .enum ["Red"], true⟩]⟩) =
      .ok ⟨[⟨"color", .enum ["red"], true⟩]⟩ := by
    rw [ascii_eq]
    decide
  refine ⟨read, by simp [Schema.isValid, Json.Fields.get?, ResolvedType.check], fun survives => ?_⟩
  have same := survives.fields
  rw [read] at same
  exact absurd same (by decide)

end Compiler

end FlowRulZ
