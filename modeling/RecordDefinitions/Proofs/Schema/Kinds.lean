import RecordDefinitions.Proofs.Distinct
import RecordDefinitions.Proofs.Schema.Nullability

/-!
# Several kinds in one schema

A schema may list the kinds of values that it describes. Its type then has a member for each of
them, and null, which is no kind of type, is allowed in the field instead. Properties come first,
though: with them a schema is one of records, whatever kinds it lists, and the other kinds are lost.
-/

namespace RecordDefinitions

namespace TypeExpr

/-- What is left of types that are no unions when their union is formed. -/
theorem alternatives_unionOf_single {types : List TypeExpr} (h : ∀ t ∈ types, t.isUnion = false) :
    (unionOf types).alternatives = if types = [] then [scalar .mixed] else distinct types := by
  have hmem {t : TypeExpr} : t ∈ distinct types ↔ t ∈ types := Inference.mem_distinct
  have hcases := unionOf_cases types
  rw [flatMap_alternatives h] at hcases
  rcases hcases with ⟨hnone, heq⟩ | ⟨t, hone, heq⟩ | ⟨hseveral, heq⟩
  · have hempty : types = [] := by
      rw [List.eq_nil_iff_forall_not_mem]
      intro t ht
      have ht := hmem.mpr ht
      rw [hnone] at ht
      cases ht
    rw [heq, if_pos hempty]
    rfl
  · have ht : t ∈ types := hmem.mp (hone ▸ List.mem_singleton_self t)
    rw [heq, if_neg (List.ne_nil_of_mem ht), hone, alternatives_of_single (h t ht)]
  · have hne : types ≠ [] := by
      rintro rfl
      simp [distinct] at hseveral
    rw [heq, if_neg hne]
    rfl

/-- One type that is given several times is left once. -/
theorem distinct_eq_singleton {types : List TypeExpr} {t : TypeExpr} (hne : types ≠ [])
    (h : ∀ m ∈ types, m = t) : distinct types = [t] := by
  obtain ⟨m, rest, rfl⟩ := List.exists_cons_of_ne_nil hne
  obtain ⟨rfl, hrest⟩ := List.forall_mem_cons.mp h
  have hfold (rest : List TypeExpr) (h : ∀ t ∈ rest, t = m) : rest.foldl appendNew [m] = [m] := by
    induction rest with
    | nil => rfl
    | cons t rest ih =>
      obtain ⟨rfl, hrest⟩ := List.forall_mem_cons.mp h
      rw [List.foldl_cons, appendNew, if_pos List.mem_cons_self, ih hrest]
  exact hfold rest hrest

end TypeExpr

namespace Schema

/-- A schema lists kinds and says nothing else about what it describes, but for properties, items
and other values. -/
structure ListsKinds (schema : Document) (kinds : List String) : Prop where
  type : schema.get? "type" = some (.array (kinds.map .string))
  others : ∀ key ∈ ["$ref", "enum", "const", "anyOf", "oneOf", "allOf"], schema.has key = false

/-- The kinds that have a type of their own, and null. -/
def knownKinds : List String :=
  ["integer", "number", "boolean", "string", "null", "array", "object"]

/-- The type of a kind. The types of items and of further values are those that their schemas
convert to, if there are such schemas. -/
inductive OfKind (Converts : Document → TypeExpr → Prop) (schema : Document) :
    String → TypeExpr → Prop
  | integer : OfKind Converts schema "integer" (.scalar .int)
  | number : OfKind Converts schema "number" (.scalar .float)
  | boolean : OfKind Converts schema "boolean" (.scalar .bool)
  | string : OfKind Converts schema "string" (.scalar .string)
  | items {members : List (String × Document)} {element : TypeExpr} :
    schema.object? "items" = some members → Converts (.object members) element →
      OfKind Converts schema "array" (.list element)
  | anyItems : schema.object? "items" = none →
      OfKind Converts schema "array" (.list (.scalar .mixed))
  | record {name : String} : schema.has "properties" →
      OfKind Converts schema "object" (.definition name)
  | values {members : List (String × Document)} {value : TypeExpr} :
    schema.has "properties" = false → schema.object? "additionalProperties" = some members →
      Converts (.object members) value → OfKind Converts schema "object" (.map value)
  | anyValues : schema.has "properties" = false → schema.object? "additionalProperties" = none →
      OfKind Converts schema "object" (.map (.scalar .mixed))
  | unknown {kind : String} : kind ∉ knownKinds → OfKind Converts schema kind (.scalar .mixed)

/-- The members of a type are those for the kinds other than null, each once, or it is mixed where
there are none. -/
def KeepsKinds (Converts : Document → TypeExpr → Prop) (schema : Document) (kinds : List String)
    (type : TypeExpr) : Prop :=
  ∃ members, List.Forall₂ (OfKind Converts schema) (kinds.filter (· ≠ "null")) members ∧
    type.alternatives =
      if members = [] then [.scalar .mixed] else TypeExpr.distinct members

/-- A schema in a document is converted to a type somewhere on a trail. -/
def ConvertsTo (s : Setting) (trail : Trail) (context : ReferenceContext) (schema : Document)
    (type : TypeExpr) : Prop :=
  ∃ (depth : Nat) (hint : String) (t u : Progress) (nullable : Bool),
    outcome (fieldType s depth trail schema hint context) t = (.ok (type, nullable), u)

/-! ## The form of such a schema -/

section Forms

variable {schema : Document} {kinds : List String}

theorem get?_eq_none_of_has {key : String} (h : schema.has key = false) : schema.get? key = none := by
  rwa [Document.has, Option.isSome_eq_false_iff, Option.isNone_iff_eq_none] at h

theorem ListsKinds.form_eq (h : ListsKinds schema kinds) :
    form schema = if schema.has "properties" then .record
      else .pieces (kinds.map (kindPiece schema)) (kindsType kinds) := by
  have hnone {key : String} (hkey : key ∈ ["$ref", "enum", "const", "anyOf", "oneOf", "allOf"]) :
      schema.get? key = none := get?_eq_none_of_has (h.others key hkey)
  have hreference : schema.string? "$ref" = none := by rw [Document.string?, hnone (by simp)]; rfl
  have henum : schema.array? "enum" = none := by rw [Document.array?, hnone (by simp)]; rfl
  have hchoices : choices? schema = none := by
    rw [choices?, hnone (by simp), hnone (by simp)]
    rfl
  have hnames : (kinds.map Document.string).filterMap Document.asString? = kinds := by
    rw [List.filterMap_map]
    exact List.filterMap_some
  unfold form
  rw [if_pos (isObject_of_get? h.type), hreference, henum, hnone (by simp), hchoices, h.type]
  simp only [h.others "allOf" (by simp), Bool.false_or, hnames]

/-- Such a schema allows null if it lists it, or says so as a schema of an OpenAPI document. -/
theorem ListsKinds.allowsNull_iff (h : ListsKinds schema kinds) :
    allowsNull schema ↔ "null" ∈ kinds ∨ schema.bool? "nullable" = some true := by
  simp [allowsNull, h.type, or_comm]

end Forms

/-! ## What becomes of the kinds -/

section Conversions

variable {s : Setting} {depth : Nat} {trail : Trail} {schema : Document} {hint : String}
  {context : ReferenceContext} {t u : Progress} {a : TypeExpr × Bool} {kind : String}
  {kinds : List String} {Converts : Document → TypeExpr → Prop} {type : TypeExpr}

theorem OfKind.isUnion (h : OfKind Converts schema kind type) : type.isUnion = false := by
  cases h <;> rfl

/-- A piece under a key that is converted is wrapped around what its schema converts to, or around
mixed. -/
theorem exists_of_pieceUnder {key : String} {rename : String → String}
    {wrap : TypeExpr → TypeExpr}
    (h : outcome ((pieceUnder key rename wrap schema).convert (fieldType s depth) trail hint context)
      t = (.ok a, u)) :
    schema.object? key = none ∧ a.1 = wrap (.scalar .mixed) ∨
      ∃ members member, schema.object? key = some members ∧ a.1 = wrap member ∧
        ConvertsTo s trail context (.object members) member := by
  unfold pieceUnder at h
  cases hkey : schema.object? key with
  | none =>
    rw [hkey] at h
    cases h
    exact .inl ⟨rfl, rfl⟩
  | some members =>
    rw [hkey] at h
    obtain ⟨b, v, hb, hlast⟩ := outcome_bind_eq_ok_iff.mp h
    cases hlast
    exact .inr ⟨members, b.1, rfl, rfl, depth, _, _, _, b.2, hb⟩

/-- Without properties, every kind but null is converted to a type of that kind. -/
theorem ofKind_of_kindPiece (hprops : schema.has "properties" = false) (hkind : kind ≠ "null")
    (h : outcome ((kindPiece schema kind).convert (fieldType s depth) trail hint context) t =
      (.ok a, u)) : OfKind (ConvertsTo s trail context) schema kind a.1 := by
  unfold kindPiece at h
  split at h
  · cases h
    exact .integer
  · cases h
    exact .number
  · cases h
    exact .boolean
  · cases h
    exact .string
  · exact absurd rfl hkind
  · obtain ⟨hitems, hwrap⟩ | ⟨members, member, hitems, hwrap, hmember⟩ := exists_of_pieceUnder h
    · rw [hwrap]
      exact .anyItems hitems
    · rw [hwrap]
      exact .items hitems hmember
  · obtain ⟨hvalues, hwrap⟩ | ⟨members, member, hvalues, hwrap, hmember⟩ := exists_of_pieceUnder h
    · rw [hwrap]
      exact .anyValues hprops hvalues
    · rw [hwrap]
      exact .values hprops hvalues hmember
  · obtain ⟨_, _, -, hlast⟩ := outcome_bind_eq_ok_iff.mp h
    cases hlast
    refine .unknown ?_
    simp only [knownKinds, List.mem_cons, List.not_mem_nil, or_false, not_or]
    exact ⟨‹_›, ‹_›, ‹_›, ‹_›, ‹_›, ‹_›, ‹_›⟩

/-- Of pieces for kinds, those for kinds other than null. -/
theorem forall₂_filter_kinds {R : String → TypeExpr × Bool → Prop}
    {types : List (TypeExpr × Bool)} (h : List.Forall₂ R kinds types) :
    List.Forall₂ (fun kind type => kind ≠ "null" ∧ ∃ nullable, R kind (type, nullable))
      (kinds.filter (· ≠ "null"))
      (((kinds.zip types).filter fun (kind, _) => kind ≠ "null").map fun (_, m) => m.1) := by
  induction h with
  | nil => exact .nil
  | @cons kind type kinds types hhead _ ih =>
    by_cases hkind : kind = "null"
    · simpa [hkind] using ih
    · rw [List.filter_cons_of_pos (by simpa using hkind), List.zip_cons_cons,
        List.filter_cons_of_pos (by simpa using hkind), List.map_cons]
      exact .cons ⟨hkind, type.2, hhead⟩ ih

/-- Without properties all kinds are kept. -/
theorem keepsKinds_of_pieces (hprops : schema.has "properties" = false)
    (h : outcome (Form.convert s (fieldType s depth) trail schema hint context
      (.pieces (kinds.map (kindPiece schema)) (kindsType kinds))) t = (.ok a, u)) :
    KeepsKinds (ConvertsTo s trail context) schema kinds a.1 ∧ (a.2 → "null" ∈ kinds) := by
  obtain ⟨types, v, htypes, hlast⟩ := outcome_bind_eq_ok_iff.mp h
  cases hlast
  have heach := forall₂_of_outcome_mapM htypes
  rw [List.forall₂_map_left_iff] at heach
  constructor
  · have hmembers := (forall₂_filter_kinds heach).imp
      (S := OfKind (ConvertsTo s trail context) schema)
      fun _ _ ⟨hkind, _, _, _, hpiece⟩ => ofKind_of_kindPiece hprops hkind hpiece
    refine ⟨_, hmembers, TypeExpr.alternatives_unionOf_single fun type htype => ?_⟩
    obtain ⟨_, _, hkind⟩ := exists_of_forall₂_left hmembers.flip type htype
    exact hkind.isUnion
  · intro hnull
    obtain ⟨⟨kind, type⟩, hm, htype⟩ := List.any_eq_true.mp hnull
    rw [List.forall₂_iff_zip] at heach
    obtain ⟨v, w, hpiece⟩ := heach.2 hm
    obtain rfl := eq_null_of_kindPiece hpiece htype
    exact (List.of_mem_zip hm).1

/-- A definition in place of the type keeps the kinds if and only if object is the only one, but for
null. -/
theorem keepsKinds_definition_iff (hprops : schema.has "properties") {name : String} :
    KeepsKinds Converts schema kinds (.definition name) ↔
      (∃ kind ∈ kinds, kind ≠ "null") ∧ ∀ kind ∈ kinds, kind ≠ "null" → kind = "object" := by
  have hmem {kind : String} : kind ∈ kinds.filter (· ≠ "null") ↔ kind ∈ kinds ∧ kind ≠ "null" := by
    simp
  constructor
  · rintro ⟨members, hmembers, halternatives⟩
    have hne : members ≠ [] := by
      rintro rfl
      cases halternatives
    rw [if_neg hne] at halternatives
    have hsame (m : TypeExpr) (hm : m ∈ members) : m = .definition name := by
      have hm : m ∈ TypeExpr.distinct members := Inference.mem_distinct.mpr hm
      rw [← halternatives] at hm
      exact List.mem_singleton.mp hm
    constructor
    · obtain ⟨m, hm⟩ := List.exists_mem_of_ne_nil _ hne
      obtain ⟨kind, hkind, -⟩ := exists_of_forall₂_left hmembers.flip m hm
      exact ⟨kind, hmem.mp hkind⟩
    · intro kind hkind hother
      obtain ⟨m, hm, hof⟩ := exists_of_forall₂_left hmembers kind (hmem.mpr ⟨hkind, hother⟩)
      rw [hsame m hm] at hof
      cases hof
      rfl
  · rintro ⟨⟨kind, hkind, hother⟩, hobject⟩
    have hne : kinds.filter (· ≠ "null") ≠ [] := List.ne_nil_of_mem (hmem.mpr ⟨hkind, hother⟩)
    refine ⟨(kinds.filter (· ≠ "null")).map fun _ => .definition name, ?_, ?_⟩
    · rw [List.forall₂_map_right_iff, List.forall₂_same]
      intro kind hkind
      rw [hobject kind (hmem.mp hkind).1 (hmem.mp hkind).2]
      exact .record hprops
    · rw [if_neg (by simpa using hne), TypeExpr.distinct_eq_singleton (by simpa using hne)]
      · rfl
      · intro type htype
        obtain ⟨_, -, rfl⟩ := List.mem_map.mp htype
        rfl

/-- A schema of records in place becomes a definition with a name that is free. -/
theorem eq_of_record
    (h : outcome (Form.record.convert s (fieldType s depth) trail schema hint context) t =
      (.ok a, u)) : a = (.definition (t.freeName s.options hint), false) := by
  obtain ⟨name, v, hname, hlast⟩ := outcome_bind_eq_ok_iff.mp h
  cases hlast
  obtain ⟨name', w, hreserve, hdefine⟩ := outcome_bind_eq_ok_iff.mp hname
  obtain ⟨_, x, -, hlast⟩ := outcome_bind_eq_ok_iff.mp hdefine
  cases hlast
  cases hreserve
  rfl

/-- What becomes of listed kinds: a definition if there are properties, and otherwise a type that
keeps them. -/
theorem ListsKinds.type_of_fieldType (hkinds : ListsKinds schema kinds)
    (h : outcome (fieldType s depth trail schema hint context) t = (.ok a, u)) :
    (if schema.has "properties" then a.1 = .definition (t.freeName s.options hint)
      else KeepsKinds (ConvertsTo s trail context) schema kinds a.1) ∧
    (a.2 ↔ "null" ∈ kinds ∨ schema.bool? "nullable" = some true) := by
  cases depth with
  | zero => cases h
  | succ depth =>
    rw [fieldType_succ, hkinds.form_eq] at h
    obtain ⟨b, v, hform, hlast⟩ := outcome_bind_eq_ok_iff.mp h
    cases hlast
    rw [Bool.or_eq_true, hkinds.allowsNull_iff]
    cases hprops : schema.has "properties" with
    | true =>
      rw [hprops, if_pos rfl] at hform
      rw [eq_of_record hform]
      simp
    | false =>
      rw [hprops, if_neg Bool.false_ne_true] at hform
      obtain ⟨hkeeps, hnull⟩ := keepsKinds_of_pieces hprops hform
      rw [if_neg Bool.false_ne_true]
      exact ⟨hkeeps, or_iff_right_of_imp fun h => .inl (hnull h)⟩

/-- The type of a field whose schema lists kinds keeps all of them, except for a schema that has
properties and lists another kind than object and null, or null alone: with properties the type is
a definition, whatever kinds are listed. The field allows null if null is listed, or the schema says
so in another way. -/
theorem keepsKinds_iff {name : String} {required : Bool} {f : FieldDeclaration}
    (hkinds : ListsKinds schema kinds)
    (h : outcome (convertField (fieldType s depth) trail name required ⟨schema, context⟩) t =
      (.ok f, u)) :
    ∃ (type : TypeExpr) (nullable : Bool),
      outcome (fieldType s depth trail schema (Naming.pascal name) context) t =
        (.ok (type, nullable), u) ∧
      f.type = type.text ∧
      (KeepsKinds (ConvertsTo s trail context) schema kinds type ↔
        (schema.has "properties" → (∃ kind ∈ kinds, kind ≠ "null") ∧
          ∀ kind ∈ kinds, kind ≠ "null" → kind = "object")) ∧
      (schema.has "properties" →
        type = .definition (t.freeName s.options (Naming.pascal name))) ∧
      (f.nullable = some true ↔ "null" ∈ kinds ∨ schema.bool? "nullable" = some true) := by
  obtain ⟨⟨type, nullable⟩, htype, htext, hnull⟩ := exists_type_of_convertField h
  obtain ⟨hkeeps, hnullable⟩ := hkinds.type_of_fieldType htype
  refine ⟨type, nullable, htype, htext, ?_, ?_, ?_⟩
  · cases hprops : schema.has "properties" with
    | true =>
      rw [hprops, if_pos rfl] at hkeeps
      obtain rfl : type = .definition (t.freeName s.options (Naming.pascal name)) := hkeeps
      rw [keepsKinds_definition_iff hprops]
      exact ⟨fun h _ => h, fun h => h rfl⟩
    | false =>
      rw [hprops, if_neg Bool.false_ne_true] at hkeeps
      exact iff_of_true hkeeps nofun
  · intro hprops
    rwa [if_pos hprops] at hkeeps
  · rw [hnull, ← hnullable]
    simp

end Conversions

/-! ## Kinds that are kept and kinds that are lost -/

/-- The conversion of a field of a document without references. -/
def kindsField (schema : Document) : Convert FieldDeclaration :=
  convertField (fieldType ⟨.usual, ⟨.here, .ofList []⟩, 4⟩ 4) [] "value" false
    ⟨schema, ⟨.null, none⟩⟩

/-- A text, a list of numbers, something unknown or null. -/
def looseSchema : Document := .object
  [("type", .array (["string", "array", "date", "null"].map .string)),
    ("items", .object [("type", .string "integer")])]

/-- A text or a record. -/
def noteSchema : Document := .object
  [("type", .array (["string", "object"].map .string)),
    ("properties", .object [("text", .object [("type", .string "string")])])]

theorem keepsKinds_iff_loose :
    ListsKinds looseSchema ["string", "array", "date", "null"] ∧
    ∃ (f : FieldDeclaration) (u : Progress) (type : TypeExpr),
      outcome (kindsField looseSchema) .empty = (.ok f, u) ∧
      f.type = "string|int[]|mixed" ∧ f.type = type.text ∧ f.nullable = some true ∧
      KeepsKinds (ConvertsTo ⟨.usual, ⟨.here, .ofList []⟩, 4⟩ [] ⟨.null, none⟩) looseSchema
        ["string", "array", "date", "null"] type := by
  have hkinds : ListsKinds looseSchema ["string", "array", "date", "null"] :=
    ⟨rfl, by decide⟩
  obtain ⟨f, u, h, htext⟩ : ∃ f u, outcome (kindsField looseSchema) .empty = (.ok f, u) ∧
      f.type = "string|int[]|mixed" := exists_outcome_of_decide (by decide +kernel)
  obtain ⟨type, nullable, -, htype, hkeeps, -, hnull⟩ := keepsKinds_iff hkinds h
  have hprops : ¬ looseSchema.has "properties" := by decide
  exact ⟨hkinds, f, u, type, h, htext, htype, hnull.mpr (.inl (by decide)),
    hkeeps.mpr fun h => absurd h hprops⟩

/-- A text or a record becomes a record. -/
theorem not_keepsKinds_note :
    ListsKinds noteSchema ["string", "object"] ∧
    ∃ (f : FieldDeclaration) (u : Progress) (type : TypeExpr) (nullable : Bool),
      outcome (kindsField noteSchema) .empty = (.ok f, u) ∧
      outcome (fieldType ⟨.usual, ⟨.here, .ofList []⟩, 4⟩ 4 [] noteSchema "Value" ⟨.null, none⟩)
        .empty = (.ok (type, nullable), u) ∧
      f.type = "Value" ∧ f.type = type.text ∧
      ¬ KeepsKinds (ConvertsTo ⟨.usual, ⟨.here, .ofList []⟩, 4⟩ [] ⟨.null, none⟩) noteSchema
        ["string", "object"] type := by
  have hkinds : ListsKinds noteSchema ["string", "object"] := ⟨rfl, by decide⟩
  have hprops : noteSchema.has "properties" := by decide
  obtain ⟨f, u, h, htext⟩ : ∃ f u, outcome (kindsField noteSchema) .empty = (.ok f, u) ∧
      f.type = "Value" := exists_outcome_of_decide (by decide +kernel)
  obtain ⟨⟨type, nullable⟩, htype, hsame, -⟩ := exists_type_of_convertField h
  refine ⟨hkinds, f, u, type, nullable, h, htype, htext, hsame, ?_⟩
  obtain ⟨hdefinition, -⟩ := hkinds.type_of_fieldType htype
  rw [if_pos hprops] at hdefinition
  obtain rfl : type = .definition _ := hdefinition
  rw [keepsKinds_definition_iff hprops]
  rintro ⟨-, hobject⟩
  exact absurd (hobject "string" (by decide) (by decide)) (by decide)

end Schema

end RecordDefinitions
