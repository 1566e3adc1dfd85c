import RecordDefinitions.TypeExpr.Basic

/-!
# Assignability

A type accepts another one when a place of the first type can hold every value
of the second. What descends from what is a parameter, since it depends on the
set of definitions.
-/

namespace RecordDefinitions.TypeExpr

/-- Who descends from whom: `descends child ancestor`. -/
abbrev Lineage := String → String → Bool

/-- The lineage in which nothing descends from anything else. -/
def noLineage : Lineage := fun _ _ => false

/-- Whether a scalar kind accepts a type that is neither equal to it nor a union. -/
def scalarAccepts : ScalarKind → TypeExpr → Bool
  | .mixed, _ => true
  | .float, scalar .int => true
  | .object, definition _ => true
  | .object, external _ => true
  | .iterable, list _ => true
  | .iterable, map _ => true
  | _, _ => false

/-- Whether a place of type `a` can hold every value of type `b`. A map also
takes lists, whose keys are numbers; a list takes no map. -/
def accepts (descends : Lineage) (a b : TypeExpr) : Bool :=
  if a = b then true
  else
    match a, b with
    | a, union members => members.attach.all fun m => accepts descends a m.1
    | union members, b => members.attach.any fun m => accepts descends m.1 b
    | scalar kind, b => scalarAccepts kind b
    | definition ancestor, definition child => descends child ancestor
    | map element, map inner => accepts descends element inner
    | map element, list inner => accepts descends element inner
    | list element, list inner => accepts descends element inner
    | _, _ => false
termination_by sizeOf a + sizeOf b
decreasing_by
  · have := List.sizeOf_lt_of_mem m.2
    simp
    omega
  · have := List.sizeOf_lt_of_mem m.2
    simp
    omega
  all_goals simp; omega

end RecordDefinitions.TypeExpr
