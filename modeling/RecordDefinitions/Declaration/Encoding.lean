import RecordDefinitions.Declaration.Basic

/-!
# Declarations as documents

The document of a set of declarations. Marks that are left out are left out of
the document, and a field with a type only is the type itself.
-/

namespace RecordDefinitions

/-- A member that is written only when there is a value. -/
def optionalMember {α : Type} (key : String) (encode : α → Document) :
    Option α → List (String × Document)
  | none => []
  | some a => [(key, encode a)]

/-- The members of a field that says more than its type. -/
def FieldDeclaration.members (f : FieldDeclaration) : List (String × Document) :=
  ("type", .string f.type)
    :: optionalMember "nullable" .bool f.nullable
    ++ optionalMember "required" .bool f.required
    ++ optionalMember "defaultValue" id f.defaultValue
    ++ optionalMember "collection" .bool f.collection
    ++ optionalMember "associative" .bool f.associative
    ++ optionalMember "singular" .string f.singular
    ++ optionalMember "deprecated" .string f.deprecated

/-- The document of a field. -/
def FieldDeclaration.toDocument (f : FieldDeclaration) : Document :=
  if f.isPlain then .string f.type else .object f.members

/-- The document of a definition. -/
def Declaration.toDocument (d : Declaration) : Document :=
  .object <|
    optionalMember "parent" .string d.parent
      ++ (if d.immutable then [("immutable", .bool true)] else [])
      ++ [("fields", .object (d.fields.toList.map fun (name, f) => (name, f.toDocument)))]

/-- The document of a set of declarations. -/
def Declarations.toDocument (ds : Declarations) : Document :=
  .object (ds.toList.map fun (name, d) => (name, d.toDocument))

end RecordDefinitions
