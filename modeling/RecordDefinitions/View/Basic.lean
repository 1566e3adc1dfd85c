import RecordDefinitions.Resolution.Resolver

/-!
# Views

What the writers of code read: resolved definitions with every name and every
piece of text that they print.
-/

namespace RecordDefinitions

/-- The names of the methods for one field. -/
structure Accessors where
  getter : String
  /-- None for an immutable definition. -/
  setter : Option String
  wither : String
  /-- For collections of a mutable definition only. -/
  adder : Option String
  /-- For collections of a mutable definition only. -/
  remover : Option String

structure FieldView where
  name : String
  propertyName : String
  /-- The type of the stored value. -/
  type : TypeExpr
  /-- The type as a reader is told it. -/
  presentation : String
  /-- The same for one element of a collection. -/
  elementPresentation : Option String
  nullable : Bool
  required : Bool
  defaultValue : Option Document
  holding : Holding
  singularName : Option String
  deprecated : Option String
  declaredIn : String
  inherited : Bool
  overrides : Option String
  accessors : Accessors

structure DefinitionView where
  name : String
  className : String
  namespaceName : Option String
  parent : Option String
  parentClassName : Option String
  immutable : Bool
  fields : List FieldView
  shape : Shape

/-- The fields that the definition declares itself. -/
def DefinitionView.ownFields (d : DefinitionView) : List FieldView :=
  d.fields.filter fun f => !f.inherited

structure ViewModel where
  definitions : List DefinitionView

/-- The view of a definition by its full name. -/
def ViewModel.find? (v : ViewModel) (name : String) : Option DefinitionView :=
  v.definitions.find? (·.name == name)

end RecordDefinitions
