import RecordDefinitions.Naming.Case
import RecordDefinitions.Naming.Singular
import RecordDefinitions.Naming.Unique
import RecordDefinitions.Schema.Composition
import RecordDefinitions.TypeExpr.Writer

/-!
# From schemas to definitions

Every schema of records becomes one definition, under a name that is reserved
before its fields are converted, so that a schema may refer back to itself. The
functions below take the conversion of an inner schema as a parameter;
`fieldType` ties the knot, and its depth is bounded.
-/

namespace RecordDefinitions.Schema

/-- The conversion of the schema of a field: its type and whether null is
allowed. The arguments are the references that are being followed, the schema, a
name for what is found in it, and the document that it stands in. -/
abbrev FieldType := Trail → Document → String → ReferenceContext → Convert (TypeExpr × Bool)

/-! ## Definitions -/

/-- Reserve a name for a definition. -/
def reserve (s : Setting) (base : String) : Convert String := do
  let t ← get
  let name := Naming.uniqueName t.usedNames (s.options.qualified (Naming.typeName base "Schema"))
  set { t with
    usedNames := name :: t.usedNames
    definitions := t.definitions.insert (name, .empty) }
  return name

section Inner

variable (s : Setting) (inner : FieldType)

/-- The note on a schema that should no longer be used. -/
def deprecation? (schema : Document) : Option String :=
  if schema.bool? "deprecated" = some true then
    some ((schema.string? "description").getD "deprecated")
  else none

/-- The field for a property. -/
def convertField (trail : Trail) (name : String) (required : Bool) (p : Property) :
    Convert FieldDeclaration := do
  let (type, nullable) ← inner trail p.schema (Naming.pascal name) p.context
  return { FieldDeclaration.ofType type.text with
    nullable := if nullable then some true else none
    required := if required then some true else none
    defaultValue := p.schema.get? "default"
    deprecated := deprecation? p.schema }

/-- The definition for a schema of records. -/
def convertRecord (trail : Trail) (schema : Document) (context : ReferenceContext) :
    Convert Declaration := do
  let c ← compose s s.bound trail schema context .empty
  let fields ← c.properties.toList.mapM fun (name, p) => do
    return (name, ← convertField inner trail name (c.required.contains name) p)
  return { Declaration.empty with fields := Catalogue.ofList fields }

/-- Convert a schema into a definition whose name is reserved. -/
def define (trail : Trail) (name : String) (schema : Document) (context : ReferenceContext) :
    Convert Unit := do
  let definition ← convertRecord s inner trail schema context
  modify fun t => { t with definitions := t.definitions.insert (name, definition) }

/-- The definition of a target under a name of its own. -/
def defineTarget (trail : Trail) (t : ReferenceTarget) (base : String) : Convert String := do
  let name ← reserve s base
  modify fun tr => { tr with named := (targetKey t, name) :: tr.named }
  define s inner trail name t.schema t.context
  return name

/-- The definition of a target, which is converted when it is met first. -/
def targetDefinition (trail : Trail) (t : ReferenceTarget) (hint : String) : Convert String := do
  match (← get).named.lookup (targetKey t) with
  | some name => return name
  | none => defineTarget s inner trail t ((suggestedName? t).getD hint)

/-- The definition of a schema that stands in the place where it is used. -/
def inlineDefinition (trail : Trail) (schema : Document) (hint : String)
    (context : ReferenceContext) : Convert String := do
  let name ← reserve s hint
  define s inner trail name schema context
  return name

/-! ## Types -/

/-- The type under a key that holds a schema; anything may stand where there is
none. -/
def typeUnder (key : String) (trail : Trail) (schema : Document) (hint : String)
    (context : ReferenceContext) : Convert TypeExpr := do
  match schema.object? key with
  | some members => return (← inner trail (.object members) hint context).1
  | none => return .scalar .mixed

/-- The type of a schema whose kind is named. -/
def typeOfKind (kind : String) : FieldType := fun trail schema hint context => do
  match kind with
  | "integer" => return (.scalar .int, false)
  | "number" => return (.scalar .float, false)
  | "boolean" => return (.scalar .bool, false)
  | "string" => return (.scalar .string, false)
  | "null" => return (.scalar .mixed, true)
  | "array" =>
    return (.list (← typeUnder inner "items" trail schema (Naming.singular hint) context), false)
  | "object" =>
    if schema.has "properties" then
      return (.definition (← inlineDefinition s inner trail schema hint context), false)
    else
      let value ← typeUnder inner "additionalProperties" trail schema (hint ++ "Value") context
      return (.map value, false)
  | other =>
    warn ("unsupported schema type '" ++ other ++ "' for " ++ hint ++ "; using mixed")
    return (.scalar .mixed, false)

/-- The type that a reference leads to. A schema of records becomes a definition,
and any other stands in place of the reference. -/
def typeOfReference (reference : String) : FieldType := fun trail _ hint context => do
  let t ← target s reference context
  if isRecord t.schema then
    return (.definition (← targetDefinition s inner trail t hint), false)
  else
    let trail ← ofExcept (trail.enter (targetKey t) reference)
    inner trail t.schema hint t.context

/-- The type of a schema that gives a choice. -/
def typeOfChoice (options : List Document) : FieldType := fun trail _ hint context => do
  let isNull (option : Document) : Bool := option.string? "type" = some "null"
  let members ← (options.filter fun option => !isNull option).mapM fun option =>
    inner trail option hint context
  return (.unionOf (members.map Prod.fst), options.any isNull || members.any Prod.snd)

/-- The type of a schema that names several kinds. -/
def typeOfKinds (kinds : List String) : FieldType := fun trail schema hint context => do
  let members ← kinds.mapM fun kind => do
    return (kind, ← typeOfKind s inner kind trail schema hint context)
  let others := members.filter fun (kind, _) => kind ≠ "null"
  return (.unionOf (others.map fun (_, m) => m.1), members.any fun (_, m) => m.2)

/-- The options of a schema that gives a choice. -/
def choices? (schema : Document) : Option (List Document) :=
  ((schema.get? "anyOf").or (schema.get? "oneOf")).bind Document.asArray?

/-- The type of a schema by the first of its keys that says one. -/
def typeOfObject : FieldType := fun trail schema hint context => do
  match schema.string? "$ref", schema.array? "enum", schema.get? "const", choices? schema with
  | some reference, _, _, _ => typeOfReference s inner reference trail schema hint context
  | none, some values, _, _ => return literalType values
  | none, none, some value, _ => return literalType [value]
  | none, none, none, some options => typeOfChoice inner options trail schema hint context
  | none, none, none, none =>
    if schema.has "allOf" || schema.has "properties" then
      return (.definition (← inlineDefinition s inner trail schema hint context), false)
    else
      match schema.get? "type" with
      | some (.string kind) => typeOfKind s inner kind trail schema hint context
      | some (.array kinds) =>
        typeOfKinds s inner (kinds.filterMap Document.asString?) trail schema hint context
      | _ =>
        if schema.has "additionalProperties" then
          typeOfKind s inner "object" trail schema hint context
        else return (.scalar .mixed, false)

end Inner

/-- Whether a schema itself says that null is allowed. -/
def allowsNull (schema : Document) : Bool :=
  schema.bool? "nullable" = some true
    || match schema.get? "type" with
      | some (.string kind) => kind == "null"
      | some (.array kinds) => kinds.contains (.string "null")
      | _ => false

/-- The type of a field and whether null is allowed, from schemas that are nested
at most `depth` deep. -/
def fieldType (s : Setting) : Nat → FieldType
  | 0, _, _, _, _ => tooDeep
  | depth + 1, trail, schema, hint, context => do
    if schema.isObject then
      let (type, nullable) ← typeOfObject s (fieldType s depth) trail schema hint context
      return (type, nullable || allowsNull schema)
    else return (.scalar .mixed, false)

/-! ## Documents -/

/-- The schemas of records among the members of an object at a place of the
document. -/
def recordTargets (context : ReferenceContext) (place : String)
    (members : List (String × Document)) : List (String × ReferenceTarget) :=
  (members.filter fun (_, schema) => isRecord schema).map fun (key, schema) =>
    (key, ⟨schema, context, place ++ "/" ++ Pointer.escapedSegment key⟩)

/-- Convert some targets, each under its key. -/
def convertTargets (s : Setting) (targets : List (String × ReferenceTarget)) : Convert Unit :=
  targets.forM fun (key, t) => do
    let _ ← targetDefinition s (fieldType s s.bound) [] t key

/-- The component schemas of an OpenAPI document. -/
def components (d : Document) : List (String × Document) :=
  ((d.get? "components").bind (·.object? "schemas")).getD []

/-- Convert the component schemas of an OpenAPI document. -/
def convertOpenApi (s : Setting) (context : ReferenceContext) : Convert Unit :=
  convertTargets s (recordTargets context "/components/schemas" (components context.document))

/-- Convert a schema document: itself, if it describes records, and the schemas
that it keeps for reference. -/
def convertSchema (s : Setting) (context : ReferenceContext) : Convert Unit := do
  let d := context.document
  if isRecord d then
    let title := (d.string? "title").getD s.options.rootName
    let _ ← defineTarget s (fieldType s s.bound) [] ⟨d, context, ""⟩ title
  ["$defs", "definitions"].forM fun container =>
    convertTargets s
      (recordTargets context ("/" ++ container) ((d.object? container).getD []))

end RecordDefinitions.Schema
