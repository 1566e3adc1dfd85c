import RecordDefinitions.Definition.Registry
import RecordDefinitions.TypeExpr.Assignable

/-!
# Chains of parents

Following parent names from a definition. A chain meets each registered name at
most once, so the number of definitions bounds every search along it.
-/

namespace RecordDefinitions.Registry

/-- The name of the parent of a registered definition. -/
def parentOf? (r : Registry) (name : String) : Option String := (r.find? name).bind (·.parent)

/-- Whether `ancestor` is met within some steps from `child`, itself included. -/
def meets (r : Registry) (ancestor : String) : Nat → String → Bool
  | steps, child =>
    child == ancestor
      || match steps, r.parentOf? child with
        | steps + 1, some parent => r.meets ancestor steps parent
        | _, _ => false

/-- Who descends from whom by the parents in a registry. Every name is taken to
descend from itself. -/
def lineage (r : Registry) : TypeExpr.Lineage := fun child ancestor =>
  r.meets ancestor r.size child

/-- Climb from a definition to its root. `chain` are the names so far, the last
of them that of `d`. The chain stops without a parent, and fails where a parent
is not registered or has been met before. -/
def climb (r : Registry) : Nat → List String → Definition → Except Failure (List String)
  | steps, chain, d =>
    match d.parent with
    | none => .ok chain
    | some parent =>
      if parent ∈ chain then
        .error (.cyclicInheritance (chain.dropWhile (· ≠ parent) ++ [parent]))
      else
        match r.find? parent, steps with
        | none, _ => .error (.unknownDefinition parent (some d.name))
        | some p, steps + 1 => r.climb steps (chain ++ [parent]) p
        | some _, 0 => .ok chain

/-- The ancestors of a name from the root down, and the name itself at the end. -/
def chain (r : Registry) (name : String) : Except Failure (List String) := do
  let d ← r.get name
  return (← r.climb r.size [name] d).reverse

end RecordDefinitions.Registry
