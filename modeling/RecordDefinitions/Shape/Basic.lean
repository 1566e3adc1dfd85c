import RecordDefinitions.Definition.Field

/-!
# Shapes

The structure of the values of a type: definitions are replaced by their fields,
so a shape names no definition that one would have to look up.
-/

namespace RecordDefinitions

/-- What a shape says of a field beside the shape of its value. -/
structure ShapeLabel where
  name : String
  nullable : Bool
  required : Bool
  deriving DecidableEq

inductive Shape where
  | scalar (kind : ScalarKind)
  | external (path : String)
  | list (value : Shape)
  | map (value : Shape)
  | record (name : String) (fields : List (ShapeLabel × Shape))
  | union (members : List Shape)

namespace Shape

instance : Inhabited Shape := ⟨scalar .mixed⟩

/-- A label before its shape: a question mark follows a name that may be missing. -/
def labelText (label : ShapeLabel) : String :=
  label.name ++ (if label.required then "" else "?") ++ ": "

mutual

/-- The annotation of a shape. -/
def annotation : Shape → String
  | scalar kind => kind.keyword
  | external path => "\\" ++ path
  | list value => "array<int, " ++ annotation value ++ ">"
  | map value => "array<string, " ++ annotation value ++ ">"
  | record _ fields => "array\x7b" ++ ", ".intercalate (fieldAnnotations fields) ++ "\x7d"
  | union members => "|".intercalate (memberAnnotations members)

def fieldAnnotations : List (ShapeLabel × Shape) → List String
  | [] => []
  | (label, shape) :: rest =>
    (labelText label ++ annotation shape ++ (if label.nullable then "|null" else ""))
      :: fieldAnnotations rest

def memberAnnotations : List Shape → List String
  | [] => []
  | s :: ss => annotation s :: memberAnnotations ss

end

mutual

/-- The document of a shape; `kind` says which of its forms it has. -/
def toDocument : Shape → Document
  | scalar kind => .object [("kind", .string "scalar"), ("scalar", .string kind.keyword)]
  | external path => .object [("kind", .string "external"), ("class", .string path)]
  | list value =>
    .object [("kind", .string "keyed"), ("key", .string "int"), ("value", toDocument value)]
  | map value =>
    .object [("kind", .string "keyed"), ("key", .string "string"), ("value", toDocument value)]
  | record name fields =>
    .object [("kind", .string "record"), ("name", .string name),
      ("fields", .object (fieldDocuments fields))]
  | union members =>
    .object [("kind", .string "union"), ("members", .array (memberDocuments members))]

def fieldDocuments : List (ShapeLabel × Shape) → List (String × Document)
  | [] => []
  | (label, shape) :: rest =>
    (label.name, .object [("shape", toDocument shape), ("nullable", .bool label.nullable),
      ("required", .bool label.required)]) :: fieldDocuments rest

def memberDocuments : List Shape → List Document
  | [] => []
  | s :: ss => toDocument s :: memberDocuments ss

end

end Shape

end RecordDefinitions
