import RecordDefinitions.Generation.Interfaces
import RecordDefinitions.Generation.Structs
import RecordDefinitions.View.Projection

/-!
# Generating code

Code for a view in one of the languages that there is a writer for.
-/

namespace RecordDefinitions

/-- What code is generated. -/
inductive Target where
  | typescript
  | rust
  deriving DecidableEq

/-- The code for a view. -/
def Target.write : Target → ViewModel → String
  | .typescript => Interfaces.write
  | .rust => Structs.write

/-- The code for a set of declarations. -/
def Target.generate (t : Target) (decls : Declarations) : Except Failure String := do
  return t.write (← ViewModel.ofDeclarations decls)

end RecordDefinitions
