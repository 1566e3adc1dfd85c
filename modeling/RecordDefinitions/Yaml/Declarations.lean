import RecordDefinitions.Declaration.Decoding
import RecordDefinitions.Yaml.Reader

/-!
# Declarations from YAML

Declarations are read from the tree of a text and not from its document, because
the places of a declaration say which type a scalar has: a name is the text of
any scalar, and what is not written counts as an object without members. A field
may be a text or an object, so inside a field a scalar is what it looks like.
-/

namespace RecordDefinitions.Yaml

/-- Whether nothing is written in place of a value. -/
def Scalar.isMissing (s : Scalar) : Bool := s.style = .plain && s.text.isEmpty

/-- A name where a name or nothing may stand. -/
def Scalar.optionalName (s : Scalar) : Except Fault Document :=
  if s.style ≠ .plain then .ok (.string s.text)
  else
    match s.tag with
    | none => .ok (if s.text.isEmpty || isNullWord s.text then .null else .string s.text)
    | some tag =>
      if tag = .core "null" then
        if isNullWord s.text then .ok .null else fault "expected null"
      else .ok (.string s.text)

/-- A truth value where one has to stand. -/
def Scalar.truth (s : Scalar) : Except Fault Document :=
  let open_ := s.style = .plain ∨ (s.style = .literal ∧ s.tag = some (.core "bool"))
  match (if open_ then boolWord? s.text else none) with
  | some b => .ok (.bool b)
  | none => fault "expected a truth value"

namespace Tree

/-! ## Fields -/

mutual

/-- A document inside a field: here keys have to look like strings too. -/
def fieldValue : Tree → Except Fault Document
  | .scalar s => s.document
  | .sequence tag items =>
    if isOwnTag tag then fault "unknown tag" else (fieldValues items).map .array
  | .mapping tag entries =>
    if isOwnTag tag then fault "unknown tag" else (fieldMembers entries).map .object

def fieldValues : List Tree → Except Fault (List Document)
  | [] => .ok []
  | t :: ts => do return (← fieldValue t) :: (← fieldValues ts)

def fieldMembers : List (Tree × Tree) → Except Fault (List (String × Document))
  | [] => .ok []
  | (k, t) :: rest => do
    let k ← fieldValue k
    let d ← fieldValue t
    match k with
    | .string k => return (k, d) :: (← fieldMembers rest)
    | _ => fault "a key has to be a string"

end

/-- Whether a tree is a number that is infinite or no number. -/
def isNotFinite : Tree → Bool
  | .scalar s => match s.value? with | some .notFinite => true | _ => false
  | _ => false

/-- A mark of a field. Only a default may be a number that is not finite. -/
def mark (key : String) (t : Tree) : Except Fault Document :=
  if key ≠ "defaultValue" ∧ t.isNotFinite then fault "expected a mark of a field"
  else fieldValue t

/-- Whether a tree is written with a minus sign in front. -/
def hasMinus : Tree → Bool
  | .scalar s => s.text.toList.head? == some '-'
  | _ => false

/-- The mark that a key names: its own text, or the text of the mark with its
number. A zero with a minus sign is no mark's number. -/
def markName (k : Tree) : Except Fault String := do
  match ← fieldValue k with
  | .string name => return name
  | .number (.integer (.ofNat n)) =>
    if k.hasMinus then fault "no mark has a negative number"
    else
      match FieldDeclaration.keys[n]? with
      | some name => return name
      | none => fault "no mark has this number"
  | _ => fault "a key has to be a string"

/-- The marks of a field in an object. -/
def marks : List (Tree × Tree) → Except Fault (List (String × Document))
  | [] => .ok []
  | (k, t) :: rest => do
    let name ← markName k
    return (name, ← mark name t) :: (← marks rest)

/-- A field: a type text, or the marks by key or in order. -/
def field : Tree → Except Fault Document
  | .scalar s => s.document
  | .sequence tag items => do
    if isOwnTag tag then fault "unknown tag"
    if FieldDeclaration.keys.length < items.length then fault "a field has too many marks"
    return .array (← (FieldDeclaration.keys.zip items).mapM fun (key, t) => mark key t)
  | .mapping tag entries => do
    if isOwnTag tag then fault "unknown tag"
    return .object (← marks entries)

/-! ## Definitions -/

/-- The members of an object whose keys are names. -/
def named (value : Tree → Except Fault Document) : Tree → Except Fault Document
  | .scalar s => if s.isMissing then .ok (.object []) else fault "expected an object"
  | .sequence .. => fault "expected an object"
  | .mapping _ entries =>
    (entries.mapM fun (k, t) => do return (← key k, ← value t)).map .object

/-- The value of a definition under one of its keys. -/
def definitionValue (key : String) (t : Tree) : Except Fault Document :=
  match key, t with
  | "parent", .scalar s => s.optionalName
  | "immutable", .scalar s => s.truth
  | "fields", t => named field t
  | _, _ => fault "an unknown key or a value of the wrong kind"

/-- A definition: its values by key. -/
def definition : Tree → Except Fault Document
  | .scalar s => if s.isMissing then .ok (.object []) else fault "expected a definition"
  | .sequence .. => fault "expected a definition"
  | .mapping _ entries =>
    (entries.mapM fun (k, t) => do
      let k ← key k
      return (k, ← definitionValue k t)).map .object

end Tree

/-- The declarations that a text holds. An empty text holds none. -/
def readDeclarations (text : String) : Except Fault Declarations := do
  match ← Tree.read text with
  | none => return .empty
  | some t =>
    match Declarations.ofDocument (← Tree.named Tree.definition t) with
    | .ok decls => return decls
    | .error f => throw ⟨f.message, none⟩

end RecordDefinitions.Yaml
