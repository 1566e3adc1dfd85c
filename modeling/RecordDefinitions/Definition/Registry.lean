import RecordDefinitions.Definition.Basic

/-!
# Registries

The definitions of one run, in the order in which they were registered. No name
is registered twice.
-/

namespace RecordDefinitions

abbrev Registry := Catalogue Definition

namespace Registry

/-- Add a definition whose name is new. -/
def register (r : Registry) (d : Definition) : Except Failure Registry :=
  if r.contains d.name then .error (.duplicateDefinition d.name) else .ok (r.insert d)

/-- Register every declared definition, in order. -/
def ofDeclarations (decls : Declarations) : Except Failure Registry :=
  decls.toList.foldlM (fun r (name, decl) => do r.register (← Definition.ofDeclaration name decl))
    .empty

/-- The definition of a name. -/
def get (r : Registry) (name : String) : Except Failure Definition :=
  match r.find? name with
  | some d => .ok d
  | none => .error (.unknownDefinition name none)

/-- The canonical declarations of all definitions. -/
def declarations (r : Registry) : Declarations :=
  Catalogue.ofList (r.toList.map fun d => (d.name, d.declaration))

end Registry

end RecordDefinitions
