import RecordDefinitions.TypeExpr.Basic

/-!
# Written types

The canonical text of a type. A list of a union is written with its key type,
because the brackets of the short form bind tighter than the bar.
-/

namespace RecordDefinitions.TypeExpr

mutual

/-- The text of a type. -/
def text : TypeExpr → String
  | scalar kind => kind.keyword
  | map element =>
    if element = scalar .mixed then "array" else "array<string, " ++ text element ++ ">"
  | list element =>
    if element.isUnion then "array<int, " ++ text element ++ ">" else text element ++ "[]"
  | definition name => name
  | external path => "\\" ++ path
  | union members => "|".intercalate (memberTexts members)

def memberTexts : List TypeExpr → List String
  | [] => []
  | t :: ts => text t :: memberTexts ts

end

end RecordDefinitions.TypeExpr
