import RecordDefinitions.Naming.Case
import RecordDefinitions.View.Basic

/-!
# From resolved definitions to views
-/

namespace RecordDefinitions

/-- A full name as its namespace and the name of a class. -/
def splitName (name : String) : Option String × String :=
  match Text.cutLast '.' name.toList with
  | some (before, last) =>
    (some (String.ofList before), Naming.typeName (String.ofList last) "Definition")
  | none => (none, Naming.typeName name "Definition")

mutual

/-- A type as a reader is told it; definitions go by their class name. -/
def TypeExpr.presentation : TypeExpr → String
  | .scalar kind => kind.keyword
  | .list element => "list<" ++ presentation element ++ ">"
  | .map element => "array<string, " ++ presentation element ++ ">"
  | .definition name => (splitName name).2
  | .external path => "\\" ++ path
  | .union members => "|".intercalate (memberPresentations members)

def TypeExpr.memberPresentations : List TypeExpr → List String
  | [] => []
  | t :: ts => presentation t :: memberPresentations ts

end

/-- The names of the methods for a field of a definition. A truth value is asked
for with `is`. -/
def Accessors.ofField (f : Field) (immutable : Bool) : Accessors :=
  let suffix := Naming.pascal f.name
  let itemSuffix := Naming.pascal (f.singularName.getD f.name)
  let asks := f.type = .scalar .bool ∧ f.holding = .single
  let perItem := f.holding ≠ .single && !immutable
  { getter := (if asks then "is" else "get") ++ suffix
    setter := if immutable then none else some ("set" ++ suffix)
    wither := "with" ++ suffix
    adder := if perItem then some ("add" ++ itemSuffix) else none
    remover := if perItem then some ("remove" ++ itemSuffix) else none }

/-- The view of a flattened field of a definition. -/
def FieldView.ofField (immutable : Bool) (f : FlatField) : FieldView where
  name := f.field.name
  propertyName := Naming.camel f.field.name
  type := f.field.containerType
  presentation := f.field.containerType.presentation ++ (if f.field.nullable then "|null" else "")
  elementPresentation :=
    if f.field.holding = .single then none else some f.field.type.presentation
  nullable := f.field.nullable
  required := f.field.required
  defaultValue := f.field.defaultValue
  holding := f.field.holding
  singularName := f.field.singularName
  deprecated := f.field.deprecated
  declaredIn := f.declaredIn
  inherited := f.inherited
  overrides := f.overrides
  accessors := .ofField f.field immutable

/-- The view of a resolved definition. -/
def DefinitionView.ofResolved (d : ResolvedDefinition) : DefinitionView :=
  let (namespaceName, className) := splitName d.name
  { name := d.name
    className, namespaceName
    parent := d.definition.parent
    parentClassName := d.definition.parent.map fun p => (splitName p).2
    immutable := d.definition.immutable
    fields := d.fields.toList.map (.ofField d.definition.immutable)
    shape := d.shape }

/-- The views of a resolved set, in its order. -/
def ViewModel.ofResolved (s : ResolvedSet) : ViewModel := ⟨s.toList.map .ofResolved⟩

/-- Register, resolve and view a set of declarations. -/
def ViewModel.ofDeclarations (decls : Declarations) : Except Failure ViewModel := do
  let r ← Registry.ofDeclarations decls
  return .ofResolved (← resolve r)

end RecordDefinitions
