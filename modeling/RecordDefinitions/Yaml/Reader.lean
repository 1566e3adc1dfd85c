import RecordDefinitions.Yaml.Tree

/-!
# Documents from YAML

The document that a YAML text denotes. The keys of mappings are scalars and count
by their text, whatever it looks like.
-/

namespace RecordDefinitions.Yaml

def fault {α : Type} (problem : String) : Except Fault α := .error ⟨problem, none⟩

/-- The document of a scalar. -/
def Scalar.document (s : Scalar) : Except Fault Document :=
  match s.document? with
  | some d => .ok d
  | none => fault "the scalar does not fit its tag or a number is too large"

namespace Tree

/-- The key that a tree is. -/
def key : Tree → Except Fault String
  | .scalar s => .ok s.text
  | _ => fault "a key has to be a string"

mutual

/-- The document of a tree. Repeated keys are kept. -/
def document : Tree → Except Fault Document
  | .scalar s => s.document
  | .sequence tag items =>
    if isOwnTag tag then fault "unknown tag" else (documents items).map .array
  | .mapping tag entries =>
    if isOwnTag tag then fault "unknown tag" else (members entries).map .object

def documents : List Tree → Except Fault (List Document)
  | [] => .ok []
  | t :: ts => do return (← document t) :: (← documents ts)

def members : List (Tree × Tree) → Except Fault (List (String × Document))
  | [] => .ok []
  | (k, t) :: rest => do return (← key k, ← document t) :: (← members rest)

end

end Tree

/-- The document that a text denotes, repeated keys merged. An empty text denotes
null. -/
def read (text : String) : Except Fault Document := do
  match ← Tree.read text with
  | none => return .null
  | some t => return (← t.document).merged

end RecordDefinitions.Yaml
