import RecordDefinitions.Resolution.Basic

/-!
# Records

The values of a record by field name. Only flattened fields of the definition can
be read or written, null goes into nullable fields only, and the records of an
immutable definition are changed by copying.
-/

namespace RecordDefinitions

structure Record where
  definition : ResolvedDefinition
  values : Catalogue (String × Document)

namespace Record

/-- The record that holds every declared default. -/
def new (d : ResolvedDefinition) : Record where
  definition := d
  values := Catalogue.ofList <|
    d.fields.toList.filterMap fun f => f.field.defaultValue.map fun value => (f.field.name, value)

/-- The flattened field of a name. -/
def field (r : Record) (name : String) : Except Failure FlatField :=
  match r.definition.fields.find? name with
  | some f => .ok f
  | none => .error (.unknownField r.definition.name name)

/-- The value of a field, if it has one. -/
def get (r : Record) (name : String) : Except Failure (Option Document) := do
  let _ ← r.field name
  return (r.values.find? name).map Prod.snd

/-- A value is for a field of the definition, and null only for one that allows it. -/
def checkAssignable (r : Record) (name : String) (value : Document) : Except Failure Unit := do
  let f ← r.field name
  if value.isNull && !f.field.nullable then throw (.nullNotAllowed r.definition.name name)

/-- Put a value into a field of the record itself, which an immutable definition refuses. -/
def assign (name : String) (value : Document) : ExceptT Failure (StateM Record) Unit := do
  let r ← MonadState.get
  r.checkAssignable name value
  if r.definition.definition.immutable then
    throw (.immutableDefinition r.definition.name name)
  modify fun r => { r with values := r.values.insert (name, value) }

/-- The record after a value has been put into a field. -/
def set (r : Record) (name : String) (value : Document) : Except Failure Record :=
  match (assign name value).run.run r with
  | (.ok _, changed) => .ok changed
  | (.error failure, _) => .error failure

/-- A copy with another value in a field, for definitions of both kinds. -/
def replacing (r : Record) (name : String) (value : Document) : Except Failure Record := do
  r.checkAssignable name value
  return { r with values := r.values.insert (name, value) }

/-- The required fields without a value, in flattened order. -/
def missingRequired (r : Record) : List String :=
  (r.definition.fields.toList.filter fun f =>
    f.field.required && !r.values.contains f.field.name).map nameOf

/-- The values as an object in flattened order. -/
def toDocument (r : Record) : Document :=
  .object <| r.definition.fields.toList.filterMap fun f => r.values.find? f.field.name

end Record

end RecordDefinitions
