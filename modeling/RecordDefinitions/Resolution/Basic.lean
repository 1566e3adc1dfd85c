import RecordDefinitions.Shape.Expansion

/-!
# Resolved definitions

A definition together with everything that follows from the registry: its
ancestors, its flattened fields and its shape.
-/

namespace RecordDefinitions

structure ResolvedDefinition where
  definition : Definition
  fields : FlatFields
  /-- The ancestors from the root down, without the definition itself. -/
  ancestors : List String
  shape : Shape

instance : Named ResolvedDefinition := ⟨fun d => d.definition.name⟩

/-- The name of the definition. -/
def ResolvedDefinition.name (d : ResolvedDefinition) : String := d.definition.name

/-- The definitions of a registry, all of them resolved. -/
abbrev ResolvedSet := Catalogue ResolvedDefinition

/-- Who descends from whom by the ancestors of a resolved set. -/
def ResolvedSet.lineage (s : ResolvedSet) : TypeExpr.Lineage := fun child ancestor =>
  child == ancestor || (s.find? child).any fun d => d.ancestors.contains ancestor

/-- The resolved definition of a name, without any memory. -/
def Registry.resolved (r : Registry) (name : String) : Except Failure ResolvedDefinition := do
  let definition ← r.get name
  let chain ← r.chain name
  let fields ← r.flatFields name
  let shape ← r.shape name
  return { definition, fields, ancestors := chain.dropLast, shape }

end RecordDefinitions
