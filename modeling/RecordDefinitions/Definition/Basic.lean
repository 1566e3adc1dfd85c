import RecordDefinitions.Definition.Field

/-!
# Definitions

A named record type with the fields that it declares itself. Its parent is known
by name only; whether there is one of that name depends on the registry.
-/

namespace RecordDefinitions

structure Definition where
  name : String
  parent : Option String
  immutable : Bool
  fields : Catalogue Field
  deriving DecidableEq

instance : Named Definition := ⟨Definition.name⟩

namespace Definition

/-- A definition without fields. -/
def ofName (name : String) : Definition := ⟨name, none, false, .empty⟩

/-- The definition with one more field, or with a field replaced. -/
def withField (d : Definition) (f : Field) : Definition := { d with fields := d.fields.insert f }

/-- The definition that is declared under a name. -/
def ofDeclaration (name : String) (decl : Declaration) : Except Failure Definition := do
  if name.isEmpty then throw (.malformed .emptyDefinitionName)
  let fields ← decl.fields.toList.mapM fun (fieldName, f) => Field.ofDeclaration name fieldName f
  return ⟨name, decl.parent, decl.immutable, Catalogue.ofList fields⟩

/-- The canonical declaration of a definition. -/
def declaration (d : Definition) : Declaration where
  parent := d.parent
  immutable := d.immutable
  fields := Catalogue.ofList (d.fields.toList.map fun f => (f.name, f.declaration))

end Definition

end RecordDefinitions
