import RecordDefinitions.Declaration.Basic
import RecordDefinitions.Location.Path

/-!
# What an import is asked for and gives
-/

namespace RecordDefinitions

/-- The kinds of documents that definitions are imported from. -/
inductive DocumentKind where
  | openApi
  | jsonSchema
  /-- A sample of the data. -/
  | data
  deriving DecidableEq

structure ImportOptions where
  /-- The kind of the document; without it the document shows its kind. -/
  kind : Option DocumentKind
  /-- What stands before the name of every definition. -/
  namespaceName : Option String
  /-- The directory of references in documents that come from no file. -/
  base : Option Path
  /-- The name of the definition for the document itself. -/
  rootName : String

/-- The options of an import that is asked for nothing. -/
def ImportOptions.usual : ImportOptions := ⟨none, none, none, "Root"⟩

/-- A name behind the namespace, unless that is missing or empty. -/
def ImportOptions.qualified (o : ImportOptions) (base : String) : String :=
  match o.namespaceName with
  | none => base
  | some n => if n.isEmpty then base else n ++ "." ++ base

structure ImportResult where
  definitions : Declarations
  /-- What the import could not find out. -/
  warnings : List String

end RecordDefinitions
