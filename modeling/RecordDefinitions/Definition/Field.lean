import RecordDefinitions.Failure
import RecordDefinitions.Naming.Singular
import RecordDefinitions.TypeExpr.Writer

/-!
# Fields

A field of a definition. For a field that holds a collection, `type` is the type
of one element, and `containerType` that of the whole value. Every declaration of
a field has one field, and `Field.declaration` writes a field back in the one
canonical way.
-/

namespace RecordDefinitions

/-- What a field holds: one value, or a list or a map of values. -/
inductive Holding where
  | single
  | list
  | map
  deriving DecidableEq

/-- The keyword of a way of holding values. -/
def Holding.keyword : Holding → String
  | .single => "none"
  | .list => "list"
  | .map => "associative_map"

structure Field where
  name : String
  type : TypeExpr
  nullable : Bool
  required : Bool
  defaultValue : Option Document
  holding : Holding
  singularName : Option String
  deprecated : Option String
  deriving DecidableEq

instance : Named Field := ⟨Field.name⟩

namespace Field

/-- A field of one value that may be left out and not be null. -/
def ofType (name : String) (type : TypeExpr) : Field :=
  ⟨name, type, false, false, none, .single, none, none⟩

/-- The field as a collection of its type. The name of one element is the
singular of the field's name unless it is set. -/
def holds (holding : Holding) (f : Field) : Field :=
  { f with
    holding
    singularName :=
      if holding = .single then f.singularName
      else f.singularName.or (some (Naming.singular f.name)) }

/-- The type of the value that is stored. -/
def containerType (f : Field) : TypeExpr :=
  match f.holding with
  | .single => f.type
  | .list => .list f.type
  | .map => .map f.type

/-! ## From and to declarations -/

/-- How values of a declared type are held. A list or map at the top of the type
makes the field a collection, unless `collection` is false; another type does so
if `collection` is true. -/
def held (type : TypeExpr) (collection associative : Option Bool) : TypeExpr × Holding :=
  let asked := if associative = some true then Holding.map else .list
  if type.isCollection && collection = some false then (type, .single)
  else
    match type with
    | .list element => (element, asked)
    | .map element => (element, .map)
    | type => if collection = some true then (type, asked) else (type, .single)

/-- The field that is declared under a name. -/
def ofDeclaration (owner name : String) (d : FieldDeclaration) : Except Failure Field := do
  if name.isEmpty then throw (.malformed (.emptyFieldName owner))
  match TypeExpr.readNullable d.type with
  | .error fault => throw (.malformed (.fieldType fault owner name))
  | .ok (type, nullInType) =>
    let (type, holding) := held type d.collection d.associative
    return {
      name, type, holding
      nullable := d.nullable.getD false || nullInType
      required := d.required.getD false
      defaultValue := d.defaultValue
      singularName :=
        if holding = .single then d.singular else d.singular.or (some (Naming.singular name))
      deprecated := d.deprecated }

/-- A mark that is written only when it is set. -/
def flag (b : Bool) : Option Bool := if b then some true else none

/-- The canonical declaration of a field. The type text carries the collection,
and a name of one element that follows from the field's name is left out. -/
def declaration (f : Field) : FieldDeclaration where
  type := f.containerType.text
  nullable := flag f.nullable
  required := flag f.required
  defaultValue := f.defaultValue
  collection := if f.holding = .single && f.type.isCollection then some false else none
  associative := none
  singular :=
    if f.holding = .single then f.singularName
    else f.singularName.filter (· ≠ Naming.singular f.name)
  deprecated := f.deprecated

end Field

end RecordDefinitions
