import RecordDefinitions.Resolution.Basic

/-!
# The resolver

Resolving with a memory: flattened fields and shapes are computed once per
definition. The memory outlives a failure, and every answer is the one that a
resolver without memory gives.
-/

namespace RecordDefinitions

/-- What has been computed so far, by the name of the definition. -/
structure ResolverMemory where
  fields : Catalogue (String × FlatFields)
  shapes : Catalogue (String × Shape)

/-- No result yet. -/
def ResolverMemory.empty : ResolverMemory := ⟨.empty, .empty⟩

abbrev Resolver := ExceptT Failure (StateM ResolverMemory)

namespace Resolver

/-- A computation that needs no memory. -/
def ofExcept {α : Type} (result : Except Failure α) : Resolver α := ExceptT.mk (pure result)

def rememberFields (name : String) (fields : FlatFields) : Resolver Unit :=
  modify fun m => { m with fields := m.fields.insert (name, fields) }

def rememberShape (name : String) (shape : Shape) : Resolver Unit :=
  modify fun m => { m with shapes := m.shapes.insert (name, shape) }

/-- The ancestors of a name from the root down, and the name itself at the end. -/
def chain (r : Registry) (name : String) : Resolver (List String) := ofExcept (r.chain name)

/-- The flattened fields of a name whose parent has the given ones. -/
def flatStep (r : Registry) (inherited : FlatFields) (name : String) : Resolver FlatFields := do
  match (← get).fields.find? name with
  | some known => return known.2
  | none =>
    let fields ← ofExcept (r.extendNamed inherited name)
    rememberFields name fields
    return fields

/-- The flattened fields of a name. -/
def flatFields (r : Registry) (name : String) : Resolver FlatFields := do
  match (← get).fields.find? name with
  | some known => return known.2
  | none => (← chain r name).foldlM (flatStep r) .empty

/-- The shape of a definition that is met along a path of others. -/
def expand (r : Registry) : Nat → List String → String → Resolver Shape
  | steps, path, name => do
    match (← get).shapes.find? name with
    | some known => return known.2
    | none =>
      if name ∈ path then throw (.cyclicShape (cycleAt path name))
      match steps with
      | 0 => throw (.unknownDefinition name none)
      | steps + 1 =>
        let fields ← flatFields r name
        let shape ← FlatFields.shapeM r (expand r steps (path ++ [name])) name fields
        rememberShape name shape
        return shape

/-- The shape of a definition. -/
def shape (r : Registry) (name : String) : Resolver Shape := expand r (r.size + 1) [] name

/-- The resolved definition of a name. -/
def definition (r : Registry) (name : String) : Resolver ResolvedDefinition := do
  let definition ← ofExcept (r.get name)
  let chain ← chain r name
  let fields ← flatFields r name
  let shape ← shape r name
  return { definition, fields, ancestors := chain.dropLast, shape }

/-- All definitions in the order of the registry, or the first failure. -/
def all (r : Registry) : Resolver ResolvedSet := do
  return Catalogue.ofList (← r.toList.mapM fun d => definition r d.name)

end Resolver

/-- Resolve every definition of a registry. -/
def resolve (r : Registry) : Except Failure ResolvedSet :=
  ((Resolver.all r).run.run .empty).1

end RecordDefinitions
