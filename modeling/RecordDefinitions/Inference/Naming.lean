import RecordDefinitions.Import.Options
import RecordDefinitions.Inference.Summary
import RecordDefinitions.Naming.Case
import RecordDefinitions.Naming.Singular
import RecordDefinitions.Naming.Unique
import RecordDefinitions.TypeExpr.Writer

/-!
# From summaries to definitions

Every object in a summary becomes a definition. Its name comes from the field
where it was found, and it is listed before the definitions that its own fields
need.
-/

namespace RecordDefinitions.Inference

/-- The names that are taken, the definitions and the warnings so far. -/
structure Inferred where
  usedNames : List String
  definitions : Declarations
  warnings : List String

/-- Nothing has been inferred. -/
def Inferred.empty : Inferred := ⟨[], .empty, []⟩

abbrev Infer := StateM Inferred

/-- Reserve a name for a definition. -/
def reserve (o : ImportOptions) (base : String) : Infer String := do
  let i ← get
  let name := Naming.uniqueName i.usedNames (o.qualified base)
  set { i with
    usedNames := name :: i.usedNames
    definitions := i.definitions.insert (name, .empty) }
  return name

/-- Give a reserved definition its fields. -/
def define (name : String) (fields : List (String × FieldDeclaration)) : Infer Unit :=
  modify fun i => { i with
    definitions :=
      i.definitions.insert (name, { Declaration.empty with fields := Catalogue.ofList fields }) }

/-- A list whose items are not known. -/
def unknownItems (owner field : String) : Infer TypeExpr := do
  let warning :=
    owner ++ "." ++ field ++ ": element type of an empty array cannot be inferred; using mixed[]"
  modify fun i => { i with warnings := i.warnings ++ [warning] }
  return .list (.scalar .mixed)

/-- The declaration of a field with a label. -/
def declared (label : FieldLabel) (type : TypeExpr) : String × FieldDeclaration :=
  (label.name,
    { FieldDeclaration.ofType type.text with
      nullable := if label.nullable then some true else none
      required := if label.required then some true else none })

mutual

/-- The declarations of the fields of a definition. -/
def nameFields (o : ImportOptions) (owner : String) :
    List (FieldLabel × List Evidence) → Infer (List (String × FieldDeclaration))
  | [] => return []
  | (label, evidence) :: rest => do
    let types ← nameKinds o owner label.name (Naming.pascal label.name) evidence
    return declared label (.unionOf types) :: (← nameFields o owner rest)

/-- The types for some kinds of values of a field. `hint` names the objects among
them. -/
def nameKinds (o : ImportOptions) (owner field hint : String) :
    List Evidence → Infer (List TypeExpr)
  | [] => return []
  | kind :: rest => do
    let type ← nameKind o owner field hint kind
    return type :: (← nameKinds o owner field hint rest)

/-- The type for one kind of values. -/
def nameKind (o : ImportOptions) (owner field hint : String) : Evidence → Infer TypeExpr
  | .scalar kind => return .scalar kind
  | .object fields => do
    let name ← reserve o (Naming.typeName hint "Item")
    define name (← nameFields o name fields)
    return .definition name
  | .list items => do
    if items.isEmpty then unknownItems owner field
    else
      let types ← nameKinds o owner field (Naming.pascal (Naming.singular field)) items
      return .list (.unionOf types)

end

/-- The definition for the samples themselves. -/
def nameRoot (o : ImportOptions) (fields : List (FieldLabel × List Evidence)) : Infer Unit := do
  let name ← reserve o (Naming.typeName o.rootName "Root")
  define name (← nameFields o name fields)

end RecordDefinitions.Inference
