import RecordDefinitions.Document.Basic

/-!
# Declarations

A definition as a source declares it, before anything is checked: types are
plain text, and every mark of a field may be left out. What is left out stays
distinguishable from what is said, a default of null from no default as well.
-/

namespace RecordDefinitions

/-- A field as it is declared. -/
structure FieldDeclaration where
  type : String
  nullable : Option Bool
  required : Option Bool
  defaultValue : Option Document
  collection : Option Bool
  associative : Option Bool
  singular : Option String
  deprecated : Option String
  deriving DecidableEq

namespace FieldDeclaration

/-- A field with a type and nothing else. -/
def ofType (type : String) : FieldDeclaration :=
  ⟨type, none, none, none, none, none, none, none⟩

/-- Whether a field says nothing but its type. -/
def isPlain (f : FieldDeclaration) : Bool := f = ofType f.type

end FieldDeclaration

/-- A definition as it is declared: its parent, whether its records may change,
and its fields in order. -/
structure Declaration where
  parent : Option String
  immutable : Bool
  fields : Catalogue (String × FieldDeclaration)
  deriving DecidableEq

/-- The declaration that says nothing. -/
def Declaration.empty : Declaration := ⟨none, false, .empty⟩

/-- Declarations by the name of the definition, in order. -/
abbrev Declarations := Catalogue (String × Declaration)

end RecordDefinitions
