import RecordDefinitions.Declaration.Basic
import RecordDefinitions.Json.Writer
import RecordDefinitions.Text.Quotation
import RecordDefinitions.TypeExpr.Reader

/-!
# Declarations from documents

Reading declarations from a document. A definition and a field are objects with
fixed keys, or lists of the same values in fixed order. In an object with fixed
keys a repeated key is a fault; in an object whose keys are names the last
member of a name counts, at the place of the first.
-/

namespace RecordDefinitions

/-- Why a document is not what it should be. -/
inductive DecodeFault where
  | invalidType (found : Document) (expected : String)
  | unknownKey (key : String)
  | repeatedKey (key : String)
  | tooManyItems (count : Nat)
  /-- A field is neither a type text nor a valid object or list. -/
  | invalidField
  | type (fault : TypeExpr.Fault)

/-- A document as a message names it. -/
def Document.described : Document → String
  | .null => "null"
  | .bool b => "boolean `" ++ Json.atom (.bool b) ++ "`"
  | .number (.integer i) => "integer `" ++ Decimal.signedText i ++ "`"
  | .number (.real bits) => "floating point `" ++ Json.layout.write bits ++ "`"
  | .string s => "string " ++ Text.quotation s
  | .array _ => "sequence"
  | .object _ => "map"

/-- The wording of a fault. -/
def DecodeFault.message : DecodeFault → String
  | .invalidType found expected =>
    "invalid type: " ++ found.described ++ ", expected " ++ expected
  | .unknownKey key =>
    "unknown field `" ++ key ++ "`, expected one of `parent`, `immutable`, `fields`"
  | .repeatedKey key => "duplicate field `" ++ key ++ "`"
  | .tooManyItems count =>
    "invalid length " ++ Decimal.text count ++ ", expected fewer elements in array"
  | .invalidField => "data did not match any variant of untagged enum RawFieldRepr"
  | .type fault => "malformed source: " ++ fault.message

namespace FieldDeclaration

/-- The keys of a field, in the order in which a list gives their values. -/
def keys : List String :=
  ["type", "nullable", "required", "defaultValue", "collection", "associative", "singular",
    "deprecated"]

/-- A value that may be missing or null, and is wrong when `decode` fails on it. -/
def optional {α : Type} (decode : Document → Option α) : Option Document → Option (Option α)
  | none => some none
  | some .null => some none
  | some d => (decode d).map some

/-- A field whose values are found by key. Only the type has to be there. -/
def ofValues (value : String → Option Document) : Option FieldDeclaration := do
  let type ← (value "type").bind Document.asString?
  let nullable ← optional Document.asBool? (value "nullable")
  let required ← optional Document.asBool? (value "required")
  let collection ← optional Document.asBool? (value "collection")
  let associative ← optional Document.asBool? (value "associative")
  let singular ← optional Document.asString? (value "singular")
  let deprecated ← optional Document.asString? (value "deprecated")
  return { type, nullable, required, collection, associative, singular, deprecated,
           defaultValue := (value "defaultValue").map Document.merged }

/-- A field from a document, or none. -/
def ofDocument? : Document → Option FieldDeclaration
  | .string type => some (ofType type)
  | .array items =>
    if items.length ≤ keys.length then ofValues fun key => items[keys.idxOf key]? else none
  | .object members =>
    if (namesOf members).all (keys.contains ·) ∧ (namesOf members).Nodup then
      ofValues fun key => (findNamed? key members).map Prod.snd
    else none
  | _ => none

def ofDocument (d : Document) : Except DecodeFault FieldDeclaration :=
  match ofDocument? d with
  | some f => .ok f
  | none => .error .invalidField

end FieldDeclaration

namespace Declaration

/-- A parent is a name or null. -/
def decodeParent : Document → Except DecodeFault (Option String)
  | .null => .ok none
  | .string name => .ok (some name)
  | d => .error (.invalidType d "a string")

def decodeImmutable : Document → Except DecodeFault Bool
  | .bool b => .ok b
  | d => .error (.invalidType d "a boolean")

def decodeFields : Document → Except DecodeFault (Catalogue (String × FieldDeclaration))
  | .object members => do
    let fields ← members.mapM fun (name, d) => do
      return (name, ← FieldDeclaration.ofDocument d)
    return Catalogue.ofList fields
  | d => .error (.invalidType d "a map")

/-- A declaration with the value under one of its keys set. -/
def withValue (decl : Declaration) (key : String) (d : Document) :
    Except DecodeFault Declaration :=
  match key with
  | "parent" => (decodeParent d).map fun parent => { decl with parent }
  | "immutable" => (decodeImmutable d).map fun immutable => { decl with immutable }
  | "fields" => (decodeFields d).map fun fields => { decl with fields }
  | _ => .error (.unknownKey key)

/-- The keys of a definition, in the order in which a list gives their values. -/
def keys : List String := ["parent", "immutable", "fields"]

/-- Set the values of an object's members in order; `seen` are the keys before. -/
def withMembers (seen : List String) (decl : Declaration) :
    List (String × Document) → Except DecodeFault Declaration
  | [] => .ok decl
  | (key, d) :: rest => do
    if seen.contains key then throw (.repeatedKey key)
    withMembers (key :: seen) (← decl.withValue key d) rest

/-- A definition from a document. -/
def ofDocument : Document → Except DecodeFault Declaration
  | .object members => withMembers [] empty members
  | .array items => do
    let decl ← withMembers [] empty (keys.zip items)
    if keys.length < items.length then throw (.tooManyItems items.length)
    return decl
  | d => .error (.invalidType d "struct RawDefinition")

end Declaration

/-- A set of declarations from a document. -/
def Declarations.ofDocument : Document → Except DecodeFault Declarations
  | .object members => do
    let decls ← members.mapM fun (name, d) => do
      return (name, ← Declaration.ofDocument d)
    return Catalogue.ofList decls
  | d => .error (.invalidType d "a map")

/-- A type from a document that holds its text. -/
def TypeExpr.ofDocument : Document → Except DecodeFault TypeExpr
  | .string text => (TypeExpr.read text).mapError .type
  | d => .error (.invalidType d "a string")

end RecordDefinitions
