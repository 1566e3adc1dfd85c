import RecordDefinitions.Inheritance.Flattening
import RecordDefinitions.Shape.Basic

/-!
# Expanding definitions

The shape of a definition, by replacing definitions with their fields. What
happens at a definition is a parameter of the expansion of a type, so the plain
expansion and one that remembers its results share it.
-/

namespace RecordDefinitions

section Types

variable {m : Type → Type} [Monad m] [MonadExceptOf Failure m]

mutual

/-- The shape of a type that stands at `site`. `expand` gives the shape of a
registered definition. -/
def TypeExpr.shapeM (r : Registry) (expand : String → m Shape) (site : String) :
    TypeExpr → m Shape
  | .scalar kind => return .scalar kind
  | .external path => return .external path
  | .list element => return .list (← shapeM r expand site element)
  | .map element => return .map (← shapeM r expand site element)
  | .definition name =>
    if r.contains name then expand name
    else throw (Failure.unknownDefinition name (some site))
  | .union members => return .union (← shapesM r expand site members)

def TypeExpr.shapesM (r : Registry) (expand : String → m Shape) (site : String) :
    List TypeExpr → m (List Shape)
  | [] => return []
  | t :: ts => return (← shapeM r expand site t) :: (← shapesM r expand site ts)

end

/-- The shape of a field, with what the shape says of it. -/
def FlatField.shapeM (r : Registry) (expand : String → m Shape) (f : FlatField) :
    m (ShapeLabel × Shape) := do
  let site := f.declaredIn ++ "." ++ f.field.name
  let shape ← TypeExpr.shapeM r expand site f.field.containerType
  return (⟨f.field.name, f.field.nullable, f.field.required⟩, shape)

/-- The shape of a definition from its flattened fields. -/
def FlatFields.shapeM (r : Registry) (expand : String → m Shape) (name : String)
    (fields : FlatFields) : m Shape :=
  return .record name (← fields.toList.mapM (FlatField.shapeM r expand))

end Types

/-- The part of a path from a name on, closed by that name. -/
def cycleAt (path : List String) (name : String) : List String :=
  path.dropWhile (· ≠ name) ++ [name]

namespace Registry

/-- The shape of a definition that is met along a path of others. A definition
that stands inside itself has none. -/
def expand (r : Registry) : Nat → List String → String → Except Failure Shape
  | steps, path, name =>
    if name ∈ path then .error (.cyclicShape (cycleAt path name))
    else
      match steps with
      | 0 => .error (.unknownDefinition name none)
      | steps + 1 => do
        FlatFields.shapeM r (r.expand steps (path ++ [name])) name (← r.flatFields name)

/-- The shape of a definition. A path without repetitions is no longer than the
number of definitions. -/
def shape (r : Registry) (name : String) : Except Failure Shape := r.expand (r.size + 1) [] name

end Registry

end RecordDefinitions
