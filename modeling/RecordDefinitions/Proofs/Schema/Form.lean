import RecordDefinitions.Proofs.Document.Parts
import RecordDefinitions.Schema.Conversion

/-!
# Three forms of schemas

To the conversion of a field a schema is a reference, a schema of records, or a whole
of pieces. Pieces are schemas inside the schema, which are converted one after the
other under the same references, or types that stand there at once. The form depends
on the schema alone.
-/

namespace RecordDefinitions.Schema

/-- A piece of the type of a schema. What a piece is called, and how it is warned
about, comes from the name for what is found in the whole schema. -/
inductive Piece where
  | known (type : TypeExpr × Bool)
  | strange (warning : String → String)
  | inner (schema : Document) (rename : String → String)
    (wrap : TypeExpr × Bool → TypeExpr × Bool)

/-- The type of a piece. -/
def Piece.convert (inner : FieldType) (trail : Trail) (hint : String)
    (context : ReferenceContext) : Piece → Convert (TypeExpr × Bool)
  | .known type => return type
  | .strange warning => do
    warn (warning hint)
    return (.scalar .mixed, false)
  | .inner schema rename wrap => return wrap (← inner trail schema (rename hint) context)

/-- What a schema is to the conversion of a field. -/
inductive Form where
  | reference (reference : String)
  | record
  | pieces (ps : List Piece) (whole : List (TypeExpr × Bool) → TypeExpr × Bool)

/-- The piece under a key that holds a schema. -/
def pieceUnder (key : String) (rename : String → String) (wrap : TypeExpr → TypeExpr)
    (schema : Document) : Piece :=
  match schema.object? key with
  | some members => .inner (.object members) rename fun member => (wrap member.1, false)
  | none => .known (wrap (.scalar .mixed), false)

/-- The piece of a kind that a schema without properties names. -/
def kindPiece (schema : Document) (kind : String) : Piece :=
  match kind with
  | "integer" => .known (.scalar .int, false)
  | "number" => .known (.scalar .float, false)
  | "boolean" => .known (.scalar .bool, false)
  | "string" => .known (.scalar .string, false)
  | "null" => .known (.scalar .mixed, true)
  | "array" => pieceUnder "items" Naming.singular .list schema
  | "object" => pieceUnder "additionalProperties" (· ++ "Value") .map schema
  | other => .strange fun hint =>
    "unsupported schema type '" ++ other ++ "' for " ++ hint ++ "; using mixed"

/-- Whether one of several options is null and nothing else. -/
def isNullOption (option : Document) : Bool := option.string? "type" = some "null"

/-- The type of a whole that has one piece. -/
def soleType (types : List (TypeExpr × Bool)) : TypeExpr × Bool :=
  types.headD (.scalar .mixed, false)

/-- The type of a choice, from those of its options that are not null. -/
def choiceType (options : List Document) (types : List (TypeExpr × Bool)) : TypeExpr × Bool :=
  (.unionOf (types.map Prod.fst), options.any isNullOption || types.any Prod.snd)

/-- The type of several kinds, from those of each of them. -/
def kindsType (kinds : List String) (types : List (TypeExpr × Bool)) : TypeExpr × Bool :=
  let members := kinds.zip types
  (.unionOf ((members.filter fun (kind, _) => kind ≠ "null").map fun (_, m) => m.1),
    members.any fun (_, m) => m.2)

/-- The form of a schema. -/
def form (schema : Document) : Form :=
  if schema.isObject then
    match schema.string? "$ref", schema.array? "enum", schema.get? "const", choices? schema with
    | some reference, _, _, _ => .reference reference
    | none, some values, _, _ => .pieces [.known (literalType values)] soleType
    | none, none, some value, _ => .pieces [.known (literalType [value])] soleType
    | none, none, none, some options =>
      .pieces ((options.filter fun option => !isNullOption option).map fun option =>
        .inner option id id) (choiceType options)
    | none, none, none, none =>
      if schema.has "allOf" || schema.has "properties" then .record
      else
        match schema.get? "type" with
        | some (.string kind) => .pieces [kindPiece schema kind] soleType
        | some (.array kinds) =>
          let named := kinds.filterMap Document.asString?
          .pieces (named.map (kindPiece schema)) (kindsType named)
        | _ =>
          if schema.has "additionalProperties" then .pieces [kindPiece schema "object"] soleType
          else .pieces [] soleType
  else .pieces [] soleType

/-- The type of a schema of a form. -/
def Form.convert (s : Setting) (inner : FieldType) (trail : Trail) (schema : Document)
    (hint : String) (context : ReferenceContext) : Form → Convert (TypeExpr × Bool)
  | .reference r => typeOfReference s inner r trail schema hint context
  | .record => return (.definition (← inlineDefinition s inner trail schema hint context), false)
  | .pieces ps whole => return whole (← ps.mapM (Piece.convert inner trail hint context))

section

variable {s : Setting} {inner : FieldType} {trail : Trail} {schema : Document} {hint : String}
  {context : ReferenceContext}

theorem typeUnder_eq (key : String) (rename : String → String) (wrap : TypeExpr → TypeExpr) :
    (do return (wrap (← typeUnder inner key trail schema (rename hint) context), false)) =
      (pieceUnder key rename wrap schema).convert inner trail hint context := by
  unfold typeUnder pieceUnder
  cases schema.object? key with
  | none => rfl
  | some members => simp [Piece.convert]

theorem typeOfKind_eq (hprops : ¬ schema.has "properties") (kind : String) :
    typeOfKind s inner kind trail schema hint context =
      (kindPiece schema kind).convert inner trail hint context := by
  unfold typeOfKind
  split
  · rfl
  · rfl
  · rfl
  · rfl
  · rfl
  · exact typeUnder_eq "items" Naming.singular .list
  · rw [if_neg hprops]
    exact typeUnder_eq "additionalProperties" (· ++ "Value") .map
  · unfold kindPiece
    split <;> first | contradiction | rfl

theorem mapM_withKind {ps : String → Piece} (kinds : List String) :
    (kinds.mapM fun kind => do
      return (kind, ← (ps kind).convert inner trail hint context)) =
      (do return kinds.zip (← (kinds.map ps).mapM (Piece.convert inner trail hint context))) := by
  induction kinds with
  | nil => simp
  | cons kind kinds ih =>
    rw [List.mapM_cons, ih, List.map_cons, List.mapM_cons]
    simp only [bind_assoc, pure_bind, List.zip_cons_cons]

theorem convert_sole (p : Piece) :
    Form.convert s inner trail schema hint context (.pieces [p] soleType) =
      p.convert inner trail hint context := by
  simp [Form.convert, soleType]

/-- The type of an object without properties and parts is that of its kinds. -/
theorem typeOfKinds_eq (hprops : ¬ schema.has "properties") (kinds : List String) :
    typeOfKinds s inner kinds trail schema hint context =
      Form.convert s inner trail schema hint context
        (.pieces (kinds.map (kindPiece schema)) (kindsType kinds)) := by
  unfold typeOfKinds Form.convert
  simp only [typeOfKind_eq hprops, mapM_withKind, bind_assoc, pure_bind]
  rfl

theorem typeOfChoice_eq (options : List Document) :
    typeOfChoice inner options trail schema hint context =
      Form.convert s inner trail schema hint context
        (.pieces ((options.filter fun option => !isNullOption option).map fun option =>
          .inner option id id) (choiceType options)) := by
  unfold typeOfChoice Form.convert
  simp only [List.mapM_map]
  congr 1
  congr 1
  funext option
  exact (bind_pure _).symm

/-- The type of an object is found by its form. -/
theorem typeOfObject_eq (hobject : schema.isObject) :
    typeOfObject s inner trail schema hint context =
      (form schema).convert s inner trail schema hint context := by
  unfold typeOfObject form
  rw [if_pos hobject]
  cases schema.string? "$ref" with
  | some r => rfl
  | none =>
    cases schema.array? "enum" with
    | some values =>
      simp only
      exact (convert_sole (.known (literalType values))).symm
    | none =>
      cases schema.get? "const" with
      | some value =>
        simp only
        exact (convert_sole (.known (literalType [value]))).symm
      | none =>
        cases choices? schema with
        | some options => exact typeOfChoice_eq options
        | none =>
          simp only
          by_cases hrecord : (schema.has "allOf" || schema.has "properties") = true
          · rw [if_pos hrecord, if_pos hrecord]
            rfl
          · rw [if_neg hrecord, if_neg hrecord]
            have hprops : ¬ schema.has "properties" := by
              intro h
              rw [h, Bool.or_true] at hrecord
              exact hrecord rfl
            have hother : (if schema.has "additionalProperties" then
                  typeOfKind s inner "object" trail schema hint context
                else return (.scalar .mixed, false)) =
                Form.convert s inner trail schema hint context
                  (if schema.has "additionalProperties" then
                    .pieces [kindPiece schema "object"] soleType
                  else .pieces [] soleType) := by
              split
              · rw [typeOfKind_eq hprops, convert_sole]
              · rfl
            cases schema.get? "type" with
            | none => exact hother
            | some d =>
              cases d with
              | string kind => exact (typeOfKind_eq hprops kind).trans (convert_sole _).symm
              | array kinds => exact typeOfKinds_eq hprops _
              | null => exact hother
              | bool b => exact hother
              | number n => exact hother
              | object members => exact hother

/-- One step of the conversion of a field. -/
theorem fieldType_succ (depth : Nat) :
    fieldType s (depth + 1) trail schema hint context =
      (do
        let (type, nullable) ← (form schema).convert s (fieldType s depth) trail schema hint context
        return (type, nullable || allowsNull schema)) := by
  rw [fieldType]
  by_cases hobject : schema.isObject
  · rw [if_pos hobject, typeOfObject_eq hobject]
  · rw [if_neg hobject]
    have hnull : allowsNull schema = false := by
      cases schema <;> first | rfl | exact absurd rfl hobject
    have hform : form schema = .pieces [] soleType := by
      unfold form
      rw [if_neg hobject]
    rw [hform, hnull]
    rfl

end

/-! ## What a form is made of -/

/-- A form tells of nothing but what stands in the schema. -/
def Form.TakenFrom (schema : Document) : Form → Prop
  | .reference r => schema.string? "$ref" = some r
  | .record => True
  | .pieces ps _ => ∀ part rename wrap, .inner part rename wrap ∈ ps → part ∈ schema.parts

theorem mem_parts_of_kindPiece {schema part : Document} {kind : String}
    {rename : String → String} {wrap : TypeExpr × Bool → TypeExpr × Bool}
    (h : .inner part rename wrap = kindPiece schema kind) : part ∈ schema.parts := by
  have hunder (key : String) (rename' : String → String) (wrap' : TypeExpr → TypeExpr)
      (h : .inner part rename wrap = pieceUnder key rename' wrap' schema) :
      part ∈ schema.parts := by
    unfold pieceUnder at h
    cases hkey : schema.object? key with
    | none =>
      rw [hkey] at h
      cases h
    | some members =>
      rw [hkey] at h
      cases h
      exact Document.mem_parts_of_get? (Document.get?_of_object? hkey)
  unfold kindPiece at h
  split at h
  · cases h
  · cases h
  · cases h
  · cases h
  · cases h
  · exact hunder _ _ _ h
  · exact hunder _ _ _ h
  · cases h

theorem mem_parts_of_choices? {schema option : Document} {options : List Document}
    (h : choices? schema = some options) (ho : option ∈ options) : option ∈ schema.parts := by
  obtain ⟨d, hd, hoptions⟩ := Option.bind_eq_some_iff.mp h
  have hpart : d ∈ schema.parts := by
    rcases Option.or_eq_some_iff.mp hd with hd | ⟨-, hd⟩
    · exact Document.mem_parts_of_get? hd
    · exact Document.mem_parts_of_get? hd
  cases d <;> cases hoptions
  exact Document.parts_subset schema _ hpart option (Document.mem_parts_of_item ho)

theorem form_takenFrom (schema : Document) : (form schema).TakenFrom schema := by
  have hsole (kind : String) : (Form.pieces [kindPiece schema kind] soleType).TakenFrom schema := by
    intro part rename wrap hm
    exact mem_parts_of_kindPiece (List.mem_singleton.mp hm)
  have hnone : (Form.pieces [] soleType).TakenFrom schema := by
    intro part rename wrap hm
    cases hm
  have hknown (type : TypeExpr × Bool) : (Form.pieces [.known type] soleType).TakenFrom schema := by
    intro part rename wrap hm
    cases List.mem_singleton.mp hm
  unfold form
  split
  · cases href : schema.string? "$ref" with
    | some r => exact href
    | none =>
      cases schema.array? "enum" with
      | some values => exact hknown _
      | none =>
        cases schema.get? "const" with
        | some value => exact hknown _
        | none =>
          cases hchoices : choices? schema with
          | some options =>
            intro part rename wrap hm
            obtain ⟨option, ho, hpiece⟩ := List.mem_map.mp hm
            cases hpiece
            exact mem_parts_of_choices? hchoices (List.mem_filter.mp ho).1
          | none =>
            simp only
            split
            · trivial
            · split
              · exact hsole _
              · intro part rename wrap hm
                obtain ⟨kind, -, hpiece⟩ := List.mem_map.mp hm
                exact mem_parts_of_kindPiece hpiece.symm
              · split
                · exact hsole _
                · exact hnone
  · exact hnone

theorem isObject_of_get? {schema d : Document} {key : String} (h : schema.get? key = some d) :
    schema.isObject := by
  cases schema with
  | object members => rfl
  | _ => cases h

theorem form_of_string? {schema : Document} {r : String} (h : schema.string? "$ref" = some r) :
    form schema = .reference r := by
  obtain ⟨d, hd, -⟩ := Option.bind_eq_some_iff.mp h
  unfold form
  rw [if_pos (isObject_of_get? hd), h]

theorem reference_of_form {schema : Document} {r : String} (h : form schema = .reference r) :
    schema.string? "$ref" = some r := by
  have htaken := form_takenFrom schema
  rwa [h] at htaken

theorem mem_parts_of_form {schema part : Document} {ps : List Piece}
    {whole : List (TypeExpr × Bool) → TypeExpr × Bool} {rename : String → String}
    {wrap : TypeExpr × Bool → TypeExpr × Bool} (h : form schema = .pieces ps whole)
    (hm : .inner part rename wrap ∈ ps) : part ∈ schema.parts := by
  have htaken := form_takenFrom schema
  rw [h] at htaken
  exact htaken part rename wrap hm

end RecordDefinitions.Schema
