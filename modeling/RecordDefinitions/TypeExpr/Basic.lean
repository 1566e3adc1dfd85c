/-!
# Type expressions

The type of a field: a scalar, a list or map of a type, a definition of the
same set, a class from elsewhere, or a union. Whether a value may be missing is
said by the field and not by its type. Unions are built by `union`, which
flattens, drops repetitions and never leaves a union of one.
-/

namespace RecordDefinitions

/-- The built-in kinds of values. -/
inductive ScalarKind where
  | int
  | float
  | string
  | bool
  | mixed
  | object
  | callable
  | resource
  | iterable
  deriving DecidableEq, Repr

/-- The keyword of a kind. -/
def ScalarKind.keyword : ScalarKind → String
  | .int => "int"
  | .float => "float"
  | .string => "string"
  | .bool => "bool"
  | .mixed => "mixed"
  | .object => "object"
  | .callable => "callable"
  | .resource => "resource"
  | .iterable => "iterable"

/-- The kind that a keyword names; three kinds have a second keyword. -/
def ScalarKind.ofKeyword? (word : String) : Option ScalarKind :=
  match word with
  | "int" | "integer" => some .int
  | "float" | "double" => some .float
  | "string" => some .string
  | "bool" | "boolean" => some .bool
  | "mixed" => some .mixed
  | "object" => some .object
  | "callable" => some .callable
  | "resource" => some .resource
  | "iterable" => some .iterable
  | _ => none

theorem ScalarKind.ofKeyword?_keyword (k : ScalarKind) : ofKeyword? k.keyword = some k := by
  cases k <;> rfl

/-- The type of a value. -/
inductive TypeExpr where
  | scalar (kind : ScalarKind)
  | list (element : TypeExpr)
  | map (element : TypeExpr)
  /-- A definition of the same set, by its full name. -/
  | definition (name : String)
  /-- A class from elsewhere, by its path without the leading backslash. -/
  | external (path : String)
  /-- One of several types; see `TypeExpr.union`. -/
  | union (members : List TypeExpr)

namespace TypeExpr

instance : Inhabited TypeExpr := ⟨scalar .mixed⟩

mutual

/-- Types are compared member by member, in order. -/
def decEq : (a b : TypeExpr) → Decidable (a = b)
  | scalar a, scalar b =>
    if h : a = b then isTrue (h ▸ rfl) else isFalse fun e => h (TypeExpr.scalar.inj e)
  | list a, list b =>
    match decEq a b with
    | isTrue h => isTrue (h ▸ rfl)
    | isFalse h => isFalse fun e => h (TypeExpr.list.inj e)
  | map a, map b =>
    match decEq a b with
    | isTrue h => isTrue (h ▸ rfl)
    | isFalse h => isFalse fun e => h (TypeExpr.map.inj e)
  | definition a, definition b =>
    if h : a = b then isTrue (h ▸ rfl) else isFalse fun e => h (TypeExpr.definition.inj e)
  | external a, external b =>
    if h : a = b then isTrue (h ▸ rfl) else isFalse fun e => h (TypeExpr.external.inj e)
  | union a, union b =>
    match decEqMembers a b with
    | isTrue h => isTrue (h ▸ rfl)
    | isFalse h => isFalse fun e => h (TypeExpr.union.inj e)
  | scalar _, list _ | scalar _, map _ | scalar _, definition _ | scalar _, external _
  | scalar _, union _
  | list _, scalar _ | list _, map _ | list _, definition _ | list _, external _
  | list _, union _
  | map _, scalar _ | map _, list _ | map _, definition _ | map _, external _ | map _, union _
  | definition _, scalar _ | definition _, list _ | definition _, map _
  | definition _, external _ | definition _, union _
  | external _, scalar _ | external _, list _ | external _, map _ | external _, definition _
  | external _, union _
  | union _, scalar _ | union _, list _ | union _, map _ | union _, definition _
  | union _, external _ => isFalse nofun

def decEqMembers : (a b : List TypeExpr) → Decidable (a = b)
  | [], [] => isTrue rfl
  | [], _ :: _ | _ :: _, [] => isFalse nofun
  | a :: as, b :: bs =>
    match decEq a b, decEqMembers as bs with
    | isTrue h, isTrue k => isTrue (h ▸ k ▸ rfl)
    | isFalse h, _ => isFalse fun e => h (List.cons.inj e).1
    | _, isFalse k => isFalse fun e => k (List.cons.inj e).2

end

instance : DecidableEq TypeExpr := decEq

/-- Whether the type is a union. -/
def isUnion : TypeExpr → Bool
  | union _ => true
  | _ => false

/-- Whether the type is a list or a map. -/
def isCollection : TypeExpr → Bool
  | list _ | map _ => true
  | _ => false

/-- The types that a type stands for: the members of a union, else itself. -/
def alternatives : TypeExpr → List TypeExpr
  | union members => members
  | t => [t]

/-- Append a type unless it is there already. -/
def appendNew (types : List TypeExpr) (t : TypeExpr) : List TypeExpr :=
  if t ∈ types then types else types ++ [t]

/-- A list of types without repetitions, each where it first came. -/
def distinct (types : List TypeExpr) : List TypeExpr := types.foldl appendNew []

/-- One of several types. Unions among them are opened and repetitions dropped;
a single type that is left stands for itself, and none at all is `mixed`. -/
def unionOf (members : List TypeExpr) : TypeExpr :=
  match distinct (members.flatMap alternatives) with
  | [] => scalar .mixed
  | [t] => t
  | ts => union ts

mutual

/-- The definitions that a type names, in order of appearance. -/
def references : TypeExpr → List String
  | scalar _ => []
  | list element => references element
  | map element => references element
  | definition name => [name]
  | external _ => []
  | union members => memberReferences members

def memberReferences : List TypeExpr → List String
  | [] => []
  | t :: ts => references t ++ memberReferences ts

end

end TypeExpr

end RecordDefinitions
