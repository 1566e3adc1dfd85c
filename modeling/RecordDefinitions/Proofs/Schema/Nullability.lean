import RecordDefinitions.Proofs.Schema.Replay
import RecordDefinitions.Proofs.Schema.Trails

/-!
# Null and references

Whether a field allows null follows from its schema: the schema says so itself, lists null among
its values, gives a choice with an option that allows null, or refers to another schema that
allows null. A reference to a schema of records is the exception. The definition that such a
schema becomes does not say whether null is allowed, and the field that refers to it never allows
null, whatever the schema says, although the same schema in place of the reference would.
-/

namespace RecordDefinitions.Schema

/-- The values that a schema lists. -/
def literals? (schema : Document) : Option (List Document) :=
  (schema.array? "enum").or ((schema.get? "const").map fun value => [value])

/-- A schema in a document allows null: it says so, null is among its values, one of its options
allows null, or it refers to a schema that does and that is none of records. -/
inductive NullAllowed (resolver : ReferenceResolver) : Document → ReferenceContext → Prop
  | declared {schema : Document} {context : ReferenceContext} :
    allowsNull schema → NullAllowed resolver schema context
  | target {schema : Document} {context : ReferenceContext} {r : String} {x : ReferenceTarget} :
    schema.string? "$ref" = some r → targetOf resolver r context = .ok x → ¬ isRecord x.schema →
      NullAllowed resolver x.schema x.context → NullAllowed resolver schema context
  | literal {schema : Document} {context : ReferenceContext} {values : List Document} :
    schema.string? "$ref" = none → literals? schema = some values → Document.null ∈ values →
      NullAllowed resolver schema context
  | option {schema option : Document} {context : ReferenceContext} {options : List Document} :
    schema.string? "$ref" = none → literals? schema = none → choices? schema = some options →
      option ∈ options → NullAllowed resolver option context → NullAllowed resolver schema context

/-! ## Forms -/

section Forms

variable {schema : Document} {values options : List Document}

theorem literals?_eq_none_iff :
    literals? schema = none ↔ schema.array? "enum" = none ∧ schema.get? "const" = none := by
  simp [literals?]

theorem form_of_literals? (hr : schema.string? "$ref" = none)
    (hvalues : literals? schema = some values) :
    form schema = .pieces [.known (literalType values)] soleType := by
  rcases Option.or_eq_some_iff.mp hvalues with henum | ⟨henum, hconst⟩
  · unfold form
    rw [if_pos (isObject_of_get? (Document.get?_of_array? henum)), hr, henum]
  · obtain ⟨value, hvalue, rfl⟩ := Option.map_eq_some_iff.mp hconst
    unfold form
    rw [if_pos (isObject_of_get? hvalue), hr, henum, hvalue]

theorem form_of_choices? (hr : schema.string? "$ref" = none) (hvalues : literals? schema = none)
    (hoptions : choices? schema = some options) :
    form schema = .pieces ((options.filter fun option => !isNullOption option).map fun option =>
      .inner option id id) (choiceType options) := by
  obtain ⟨henum, hconst⟩ := literals?_eq_none_iff.mp hvalues
  have hobject : schema.isObject := by
    obtain ⟨d, hd, -⟩ := Option.bind_eq_some_iff.mp hoptions
    rcases Option.or_eq_some_iff.mp hd with hd | ⟨-, hd⟩
    · exact isObject_of_get? hd
    · exact isObject_of_get? hd
  unfold form
  rw [if_pos hobject, hr, henum, hconst, hoptions]

theorem allowsNull_of_isNullOption {option : Document} (h : isNullOption option) :
    allowsNull option := by
  have htype : option.get? "type" = some (.string "null") := by
    obtain ⟨d, hd, hstring⟩ := Option.bind_eq_some_iff.mp (of_decide_eq_true h)
    cases d <;> cases hstring
    exact hd
  simp [allowsNull, htype]

end Forms

/-! ## Null among the kinds of a schema -/

section Kinds

variable {s : Setting} {inner : FieldType} {trail : Trail} {schema : Document} {hint : String}
  {context : ReferenceContext} {t u : Progress} {a : TypeExpr × Bool}

theorem not_nullable_of_pieceUnder {key : String} {rename : String → String}
    {wrap : TypeExpr → TypeExpr}
    (h : outcome ((pieceUnder key rename wrap schema).convert inner trail hint context) t =
      (.ok a, u)) : a.2 = false := by
  unfold pieceUnder at h
  cases hkey : schema.object? key with
  | none =>
    rw [hkey] at h
    cases h
    rfl
  | some members =>
    rw [hkey] at h
    obtain ⟨b, v, -, hlast⟩ := outcome_bind_eq_ok_iff.mp h
    cases hlast
    rfl

/-- Of all kinds only null allows null. -/
theorem eq_null_of_kindPiece {kind : String}
    (h : outcome ((kindPiece schema kind).convert inner trail hint context) t = (.ok a, u))
    (hnull : a.2 = true) : kind = "null" := by
  unfold kindPiece at h
  split at h
  · cases h
    cases hnull
  · cases h
    cases hnull
  · cases h
    cases hnull
  · cases h
    cases hnull
  · rfl
  · rw [not_nullable_of_pieceUnder h] at hnull
    cases hnull
  · rw [not_nullable_of_pieceUnder h] at hnull
    cases hnull
  · cases h
    cases hnull

/-- A schema whose type is said by its kinds allows null only if it says so itself. -/
theorem allowsNull_of_kinds (hr : schema.string? "$ref" = none) (hvalues : literals? schema = none)
    (hoptions : choices? schema = none)
    (hmoves : ∀ trail schema hint context,
      Moves s.options s.resolver.loader (inner trail schema hint context))
    (ht : t.lookup.Valid s.resolver.loader)
    (h : outcome ((form schema).convert s inner trail schema hint context) t = (.ok a, u))
    (hnull : a.2 = true) : allowsNull schema := by
  obtain ⟨henum, hconst⟩ := literals?_eq_none_iff.mp hvalues
  have hsole {kind : String} (h : outcome (Form.convert s inner trail schema hint context
      (.pieces [kindPiece schema kind] soleType)) t = (.ok a, u)) : kind = "null" := by
    rw [convert_sole] at h
    exact eq_null_of_kindPiece h hnull
  have hnone (h : outcome (Form.convert s inner trail schema hint context (.pieces [] soleType)) t =
      (.ok a, u)) : allowsNull schema := by
    cases h
    cases hnull
  unfold form at h
  split at h
  · simp only [hr, henum, hconst, hoptions] at h
    split at h
    · obtain ⟨name, v, -, hlast⟩ := outcome_bind_eq_ok_iff.mp h
      cases hlast
      cases hnull
    · split at h
      · rename_i kind htype
        simp [allowsNull, htype, hsole h]
      · rename_i kinds htype
        obtain ⟨types, v, htypes, hlast⟩ := outcome_bind_eq_ok_iff.mp h
        cases hlast
        have heach := Moves.forall₂_of_mapM (fun p => p.moves hmoves trail hint context) ht htypes
        rw [List.forall₂_map_left_iff, List.forall₂_iff_zip] at heach
        obtain ⟨⟨kind, type⟩, hm, htype'⟩ := List.any_eq_true.mp hnull
        obtain ⟨v, w, -, hpiece⟩ := heach.2 hm
        obtain rfl := eq_null_of_kindPiece hpiece htype'
        obtain ⟨d, hd, hstring⟩ := List.mem_filterMap.mp (List.of_mem_zip hm).1
        have hmember : Document.string "null" ∈ kinds := by
          cases d <;> cases hstring
          exact hd
        simp [allowsNull, htype, hmember]
      · split at h
        · exact absurd (hsole h) (by decide)
        · exact hnone h
  · exact hnone h

end Kinds

/-! ## What null follows from, form by form -/

section Forms

variable {resolver : ReferenceResolver} {schema : Document} {context : ReferenceContext}
  {values options : List Document} (hown : ¬ allowsNull schema)

include hown

theorem nullAllowed_iff_target {r : String} {x : ReferenceTarget}
    (hr : schema.string? "$ref" = some r) (hx : targetOf resolver r context = .ok x) :
    NullAllowed resolver schema context ↔
      ¬ isRecord x.schema ∧ NullAllowed resolver x.schema x.context := by
  constructor
  · intro h
    cases h with
    | declared h => exact absurd h hown
    | target hr' hx' hrecord h =>
      obtain rfl := Option.some.inj (hr.symm.trans hr')
      obtain rfl := Except.ok.inj (hx.symm.trans hx')
      exact ⟨hrecord, h⟩
    | literal hr' => cases hr.symm.trans hr'
    | option hr' => cases hr.symm.trans hr'
  · rintro ⟨hrecord, h⟩
    exact .target hr hx hrecord h

theorem nullAllowed_iff_literal (hr : schema.string? "$ref" = none)
    (hvalues : literals? schema = some values) :
    NullAllowed resolver schema context ↔ Document.null ∈ values := by
  constructor
  · intro h
    cases h with
    | declared h => exact absurd h hown
    | target hr' => cases hr.symm.trans hr'
    | literal _ hvalues' h =>
      obtain rfl := Option.some.inj (hvalues.symm.trans hvalues')
      exact h
    | option _ hvalues' => cases hvalues.symm.trans hvalues'
  · exact .literal hr hvalues

theorem nullAllowed_iff_option (hr : schema.string? "$ref" = none)
    (hvalues : literals? schema = none) (hoptions : choices? schema = some options) :
    NullAllowed resolver schema context ↔
      ∃ option ∈ options, NullAllowed resolver option context := by
  constructor
  · intro h
    cases h with
    | declared h => exact absurd h hown
    | target hr' => cases hr.symm.trans hr'
    | literal _ hvalues' => cases hvalues.symm.trans hvalues'
    | option _ _ hoptions' ho h =>
      obtain rfl := Option.some.inj (hoptions.symm.trans hoptions')
      exact ⟨_, ho, h⟩
  · rintro ⟨option, ho, h⟩
    exact .option hr hvalues hoptions ho h

theorem not_nullAllowed_of_kinds (hr : schema.string? "$ref" = none)
    (hvalues : literals? schema = none) (hoptions : choices? schema = none) :
    ¬ NullAllowed resolver schema context := by
  intro h
  cases h with
  | declared h => exact hown h
  | target hr' => cases hr.symm.trans hr'
  | literal _ hvalues' => cases hvalues.symm.trans hvalues'
  | option _ _ hoptions' => cases hoptions.symm.trans hoptions'

end Forms

/-! ## What a conversion tells -/

/-- A conversion tells of every schema whether it allows null. -/
def TellsNull (s : Setting) (inner : FieldType) : Prop :=
  ∀ ⦃trail schema hint context t a u⦄, t.lookup.Valid s.resolver.loader →
    outcome (inner trail schema hint context) t = (.ok a, u) →
      (a.2 = true ↔ NullAllowed s.resolver schema context)

section Conversions

variable {s : Setting} {inner : FieldType} {trail : Trail} {schema : Document} {hint : String}
  {context : ReferenceContext} {t u : Progress} {a : TypeExpr × Bool}

/-- A reference that is converted becomes a definition, or its target stands in its place. -/
theorem exists_target_of_reference {r : String} (ht : t.lookup.Valid s.resolver.loader)
    (h : outcome ((Form.reference r).convert s inner trail schema hint context) t = (.ok a, u)) :
    ∃ (x : ReferenceTarget) (m : LookupMemory), targetOf s.resolver r context = .ok x ∧
      m.Valid s.resolver.loader ∧
      (isRecord x.schema ∧ a.2 = false ∨
        ¬ isRecord x.schema ∧ outcome (inner (trail ++ [(targetKey x, r)]) x.schema hint x.context)
          { t with lookup := m } = (.ok a, u)) := by
  obtain ⟨m, hm, htarget⟩ := searches_target r context t ht
  obtain ⟨x, v, hfound, hplace⟩ := outcome_bind_eq_ok_iff.mp h
  obtain ⟨hx, rfl⟩ := Prod.mk.inj (htarget.symm.trans hfound)
  refine ⟨x, m, hx, hm, ?_⟩
  by_cases hrecord : isRecord x.schema
  · rw [if_pos hrecord] at hplace
    obtain ⟨name, v, -, hlast⟩ := outcome_bind_eq_ok_iff.mp hplace
    cases hlast
    exact .inl ⟨hrecord, rfl⟩
  · rw [if_neg hrecord] at hplace
    obtain ⟨next, v, henter, hinner⟩ := outcome_bind_eq_ok_iff.mp hplace
    obtain ⟨hnew, rfl⟩ := Prod.mk.inj henter
    obtain ⟨-, rfl⟩ := Trail.enter_eq_ok_iff.mp hnew
    exact .inr ⟨hrecord, hinner⟩

theorem any_snd_iff {α : Type} {p : α → Prop} {as : List α} {types : List (TypeExpr × Bool)}
    (h : List.Forall₂ (fun a type => type.2 = true ↔ p a) as types) :
    types.any Prod.snd = true ↔ ∃ a ∈ as, p a := by
  induction h with
  | nil => simp
  | cons h _ ih => simp [h, ih]

/-- A choice allows null if one of its options does. -/
theorem nullable_of_choice {options : List Document} (hinner : TellsNull s inner)
    (hmoves : ∀ trail schema hint context,
      Moves s.options s.resolver.loader (inner trail schema hint context))
    (ht : t.lookup.Valid s.resolver.loader)
    (h : outcome (Form.convert s inner trail schema hint context
      (.pieces ((options.filter fun option => !isNullOption option).map fun option =>
        .inner option id id) (choiceType options))) t = (.ok a, u)) :
    a.2 = true ↔ ∃ option ∈ options, NullAllowed s.resolver option context := by
  obtain ⟨types, v, htypes, hlast⟩ := outcome_bind_eq_ok_iff.mp h
  cases hlast
  have heach := Moves.forall₂_of_mapM (fun p => p.moves hmoves trail hint context) ht htypes
  rw [List.forall₂_map_left_iff] at heach
  have htells : List.Forall₂ (fun option type =>
      type.2 = true ↔ NullAllowed s.resolver option context)
      (options.filter fun option => !isNullOption option) types := by
    refine heach.imp ?_
    rintro option type ⟨v, w, hv, hpiece⟩
    obtain ⟨b, x, hb, hlast⟩ := outcome_bind_eq_ok_iff.mp hpiece
    cases hlast
    exact hinner hv hb
  rw [choiceType, Bool.or_eq_true, any_snd_iff htells, List.any_eq_true]
  constructor
  · rintro (⟨option, ho, hnull⟩ | ⟨option, ho, hnull⟩)
    · exact ⟨option, ho, .declared (allowsNull_of_isNullOption hnull)⟩
    · exact ⟨option, List.mem_of_mem_filter ho, hnull⟩
  · rintro ⟨option, ho, hnull⟩
    by_cases hsole : isNullOption option
    · exact .inl ⟨option, ho, hsole⟩
    · refine .inr ⟨option, List.mem_filter.mpr ⟨ho, ?_⟩, hnull⟩
      simp [hsole]

/-- What is inside a schema tells whether the schema allows null. -/
theorem tellsNull_succ {depth : Nat} (hinner : TellsNull s (fieldType s depth)) :
    TellsNull s (fieldType s (depth + 1)) := by
  intro trail schema hint context t a u ht h
  rw [fieldType_succ] at h
  obtain ⟨b, v, hform, hlast⟩ := outcome_bind_eq_ok_iff.mp h
  cases hlast
  by_cases hown : allowsNull schema
  · simp [hown, NullAllowed.declared hown]
  rw [Bool.or_eq_true, or_iff_left hown]
  have hmoves := moves_fieldType (s := s) depth
  cases hr : schema.string? "$ref" with
  | some r =>
    rw [form_of_string? hr] at hform
    obtain ⟨x, m, hx, hm, ⟨hrecord, hnull⟩ | ⟨hrecord, hplace⟩⟩ :=
      exists_target_of_reference ht hform
    · simp [nullAllowed_iff_target hown hr hx, hrecord, hnull]
    · rw [nullAllowed_iff_target hown hr hx, and_iff_right hrecord]
      exact hinner hm hplace
  | none =>
    cases hvalues : literals? schema with
    | some values =>
      rw [form_of_literals? hr hvalues, convert_sole] at hform
      cases hform
      rw [nullAllowed_iff_literal hown hr hvalues]
      simp [literalType, Document.isNull_iff]
    | none =>
      cases hoptions : choices? schema with
      | some options =>
        rw [form_of_choices? hr hvalues hoptions] at hform
        rw [nullAllowed_iff_option hown hr hvalues hoptions]
        exact nullable_of_choice hinner hmoves ht hform
      | none =>
        have hkinds (hnull : b.2 = true) : allowsNull schema :=
          allowsNull_of_kinds hr hvalues hoptions hmoves ht hform hnull
        exact iff_of_false (fun h => hown (hkinds h))
          (not_nullAllowed_of_kinds hown hr hvalues hoptions)

theorem tellsNull_fieldType (s : Setting) (depth : Nat) : TellsNull s (fieldType s depth) := by
  induction depth with
  | zero =>
    intro trail schema hint context t a u _ h
    cases h
  | succ depth ih => exact tellsNull_succ ih

end Conversions

/-! ## A reference and its target in place of it -/

/-- A schema that is nothing but a reference. -/
def referring (r : String) : Document := .object [("$ref", .string r)]

theorem string?_referring (r : String) : (referring r).string? "$ref" = some r := rfl

theorem not_allowsNull_referring (r : String) : ¬ allowsNull (referring r) := by
  have hnull : (referring r).bool? "nullable" = none := rfl
  have htype : (referring r).get? "type" = none := rfl
  simp [allowsNull, hnull, htype]

section References

variable {s : Setting} {trail : Trail} {name r : String} {required : Bool} {p : Property}
  {context : ReferenceContext} {x : ReferenceTarget} {t u : Progress} {f : FieldDeclaration}
  {depth : Nat}

theorem exists_type_of_convertField {inner : FieldType}
    (h : outcome (convertField inner trail name required p) t = (.ok f, u)) :
    ∃ a, outcome (inner trail p.schema (Naming.pascal name) p.context) t = (.ok a, u) ∧
      f.type = a.1.text ∧ f.nullable = if a.2 then some true else none := by
  obtain ⟨a, v, ha, hlast⟩ := outcome_bind_eq_ok_iff.mp h
  cases hlast
  exact ⟨a, ha, rfl, rfl⟩

/-- A field allows null if and only if its schema does. -/
theorem nullable_convertField (ht : t.lookup.Valid s.resolver.loader)
    (h : outcome (convertField (fieldType s depth) trail name required p) t = (.ok f, u)) :
    f.nullable = some true ↔ NullAllowed s.resolver p.schema p.context := by
  obtain ⟨a, ha, -, hnull⟩ := exists_type_of_convertField h
  rw [hnull, ← tellsNull_fieldType s depth ht ha]
  simp

/-- Where a reference to anything but records can be converted, its target can be converted in its
place, with the same outcome. -/
theorem outcome_inPlace {hint : String} {a : TypeExpr × Bool} (hrecord : ¬ isRecord x.schema)
    (hx : targetOf s.resolver r context = .ok x) (ht : t.lookup.Valid s.resolver.loader)
    (h : outcome (fieldType s depth trail (referring r) hint context) t = (.ok a, u)) :
    ∃ m : LookupMemory, m.Valid s.resolver.loader ∧
      outcome (fieldType s depth trail x.schema hint x.context) { t with lookup := m } =
        (.ok a, u) := by
  cases depth with
  | zero => cases h
  | succ depth =>
    rw [fieldType_succ, form_of_string? (string?_referring r)] at h
    obtain ⟨b, v, hb, hlast⟩ := outcome_bind_eq_ok_iff.mp h
    have hsame : b = a ∧ v = u := by
      cases hlast
      simp [not_allowsNull_referring]
    obtain ⟨rfl, rfl⟩ := hsame
    obtain ⟨y, m, hy, hm, ⟨hy', -⟩ | ⟨-, hplace⟩⟩ := exists_target_of_reference ht hb
    · obtain rfl := Except.ok.inj (hx.symm.trans hy)
      exact absurd hy' hrecord
    · obtain rfl := Except.ok.inj (hx.symm.trans hy)
      have hshort := carriesOver_fieldType (trail.within_append _) depth x.schema hint x.context
        _ _ _ hplace
      exact ⟨m, hm, (fieldType_approximates (b := s.bound) le_rfl (Nat.le_succ depth) _ _ _ _).ok
        hshort⟩

/-- A field that refers to a schema allows null if and only if the schema does and is none of
records, and the field with the schema in place of the reference if and only if the schema does. So
null gets lost just for schemas of records that allow it. In place of a reference, a schema that is
none of records can be converted whenever the reference can. -/
theorem nullable_of_reference_iff (hx : targetOf s.resolver r context = .ok x)
    (ht : t.lookup.Valid s.resolver.loader)
    (h : outcome (convertField (fieldType s depth) trail name required ⟨referring r, context⟩) t =
      (.ok f, u)) :
    (f.nullable = some true ↔
      ¬ isRecord x.schema ∧ NullAllowed s.resolver x.schema x.context) ∧
    (∀ (depth' : Nat) (trail' : Trail) (t' u' : Progress) (f' : FieldDeclaration),
      t'.lookup.Valid s.resolver.loader →
      outcome (convertField (fieldType s depth') trail' name required ⟨x.schema, x.context⟩) t' =
        (.ok f', u') →
      (f'.nullable = some true ↔ NullAllowed s.resolver x.schema x.context) ∧
      ((f.nullable = some true ↔ f'.nullable = some true) ↔
        ¬ (isRecord x.schema ∧ NullAllowed s.resolver x.schema x.context))) ∧
    (¬ isRecord x.schema → ∃ (f' : FieldDeclaration) (m : LookupMemory),
      m.Valid s.resolver.loader ∧
      outcome (convertField (fieldType s depth) trail name required ⟨x.schema, x.context⟩)
        { t with lookup := m } = (.ok f', u) ∧
      f'.type = f.type ∧ f'.nullable = f.nullable) := by
  have hreference : f.nullable = some true ↔
      ¬ isRecord x.schema ∧ NullAllowed s.resolver x.schema x.context := by
    rw [nullable_convertField ht h]
    exact nullAllowed_iff_target (not_allowsNull_referring r) (string?_referring r) hx
  refine ⟨hreference, ?_, ?_⟩
  · intro depth' trail' t' f' u' ht' h'
    have hplace := nullable_convertField ht' h'
    refine ⟨hplace, ?_⟩
    rw [hreference, hplace]
    by_cases hrecord : isRecord x.schema <;> simp [hrecord]
  · intro hrecord
    obtain ⟨a, ha, htype, hnull⟩ := exists_type_of_convertField h
    obtain ⟨m, hm, hplace⟩ := outcome_inPlace hrecord hx ht ha
    exact ⟨_, m, hm, outcome_bind_eq_ok_iff.mpr ⟨a, u, hplace, rfl⟩, htype.symm, hnull.symm⟩

end References

/-! ## An address that may be null -/

def addressSchema : Document := .object
  [("type", .array [.string "object", .string "null"]),
    ("properties", .object [("city", .object [("type", .string "string")])])]

/-- A person with an address, which is a record, and with a nickname, which is another name for a
choice. Both may be null. -/
def personDocument : Document := .object
  [("$schema", .string "s"),
    ("properties", .object [("home", referring "#/$defs/Address"),
      ("nick", referring "#/$defs/Nick")]),
    ("$defs", .object [("Address", addressSchema), ("Nick", referring "#/$defs/Short"),
      ("Short", .object [("anyOf", .array [.object [("type", .string "string")],
        .object [("const", .null)]])])])]

def personContext : ReferenceContext := ⟨personDocument, none⟩

def personSetting : Setting := ⟨.usual, ⟨.here, .ofList []⟩, 8⟩

/-- The conversion of a field of the person. -/
def personField (name : String) (schema : Document) : Convert FieldDeclaration :=
  convertField (fieldType personSetting 4) [] name false ⟨schema, personContext⟩

/-- A field that refers to the address does not allow null, and with the address in place of the
reference it does. -/
theorem not_nullable_home : ∃ (f f' : FieldDeclaration) (u u' : Progress),
    targetOf personSetting.resolver "#/$defs/Address" personContext =
      .ok ⟨addressSchema, personContext, "/$defs/Address"⟩ ∧
    outcome (personField "home" (referring "#/$defs/Address")) .empty = (.ok f, u) ∧
    outcome (personField "home" addressSchema) .empty = (.ok f', u') ∧
    ¬ (f.nullable = some true ↔ f'.nullable = some true) := by
  have htarget : targetOf personSetting.resolver "#/$defs/Address" personContext =
      .ok ⟨addressSchema, personContext, "/$defs/Address"⟩ := by
    with_unfolding_all rfl
  obtain ⟨f, u, h, hnone⟩ : ∃ f u,
      outcome (personField "home" (referring "#/$defs/Address")) .empty = (.ok f, u) ∧
        f.nullable = none := exists_outcome_of_decide (by decide +kernel)
  obtain ⟨f', u', h', hnull⟩ : ∃ f' u',
      outcome (personField "home" addressSchema) .empty = (.ok f', u') ∧
        f'.nullable = some true := exists_outcome_of_decide (by decide +kernel)
  refine ⟨f, f', u, u', htarget, h, h', ?_⟩
  simp [hnone, hnull]

theorem nullable_of_reference_iff_nick :
    targetOf personSetting.resolver "#/$defs/Nick" personContext =
      .ok ⟨referring "#/$defs/Short", personContext, "/$defs/Nick"⟩ ∧
    Progress.empty.lookup.Valid personSetting.resolver.loader ∧
    ∃ (f f' : FieldDeclaration) (u : Progress) (m : LookupMemory),
      outcome (personField "nick" (referring "#/$defs/Nick")) .empty = (.ok f, u) ∧
      outcome (personField "nick" (referring "#/$defs/Short")) { Progress.empty with lookup := m } =
        (.ok f', u) ∧
      f'.nullable = some true ∧ f'.type = f.type ∧
      NullAllowed personSetting.resolver (referring "#/$defs/Short") personContext := by
  have htarget : targetOf personSetting.resolver "#/$defs/Nick" personContext =
      .ok ⟨referring "#/$defs/Short", personContext, "/$defs/Nick"⟩ := by
    with_unfolding_all rfl
  have hvalid : Progress.empty.lookup.Valid personSetting.resolver.loader :=
    LookupMemory.valid_empty _
  obtain ⟨f, u, h, hnull⟩ : ∃ f u,
      outcome (personField "nick" (referring "#/$defs/Nick")) .empty = (.ok f, u) ∧
        f.nullable = some true := exists_outcome_of_decide (by decide +kernel)
  obtain ⟨hreference, hplaces, hplace⟩ := nullable_of_reference_iff htarget hvalid h
  obtain ⟨hrecord, -⟩ := hreference.mp hnull
  obtain ⟨f', m, hm, h', htype, hsame⟩ := hplace hrecord
  have hnull' : f'.nullable = some true := hsame.trans hnull
  exact ⟨htarget, hvalid, f, f', u, m, h, h', hnull', htype, (hplaces _ _ _ _ _ hm h').1.mp hnull'⟩

end RecordDefinitions.Schema
