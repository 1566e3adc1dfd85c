import RecordDefinitions.Generation.Names
import RecordDefinitions.Json.Writer
import RecordDefinitions.Naming.Case

/-!
# Rust structs

One struct per definition, with all its flattened fields, and a method for each
thing that can be done with a field. Field names become identifiers that are
unique within the struct; a name that had to change is kept as the name in data.
Types and methods are kept apart from their text, and the file imports the names
that its types use.
-/

namespace RecordDefinitions.Structs

open Generation

/-- The words that are no identifiers. -/
def reservedWords : List String := [
  "as", "break", "const", "continue", "crate", "else", "enum", "extern", "false", "fn", "for",
  "if", "impl", "in", "let", "loop", "match", "mod", "move", "mut", "pub", "ref", "return",
  "self", "Self", "static", "struct", "super", "trait", "true", "type", "unsafe", "use", "where",
  "while", "async", "await", "dyn", "abstract", "become", "box", "do", "final", "macro",
  "override", "priv", "try", "typeof", "unsized", "virtual", "yield"]

/-! ## Types -/

inductive MemberType where
  | int
  | float
  | string
  | bool
  /-- Any document. -/
  | value
  | list (element : MemberType)
  | map (element : MemberType)
  | named (name : String)

namespace MemberType

/-- The type of a scalar kind. -/
def ofScalar : ScalarKind → MemberType
  | .int => int
  | .float => float
  | .string => string
  | .bool => bool
  | _ => value

/-- The type of values of a field. Unions, classes from elsewhere and open kinds
may be anything. -/
def ofType (names : TypeNames) : TypeExpr → MemberType
  | .scalar kind => ofScalar kind
  | .list element => list (ofType names element)
  | .map element => map (ofType names element)
  | .definition name => ((names.lookup name).map named).getD value
  | .external _ | .union _ => value

def text : MemberType → String
  | int => "i64"
  | float => "f64"
  | string => "String"
  | bool => "bool"
  | value => "Value"
  | list element => "Vec<" ++ text element ++ ">"
  | map element => "BTreeMap<String, " ++ text element ++ ">"
  | named name => name

/-- Whether the type names the type of any document. -/
def usesValue : MemberType → Bool
  | value => true
  | list element | map element => element.usesValue
  | _ => false

/-- Whether the type names the type of maps. -/
def usesMap : MemberType → Bool
  | map _ => true
  | list element => element.usesMap
  | _ => false

/-- The type of one element of a collection. -/
def element : MemberType → MemberType
  | list element | map element => element
  | t => t

end MemberType

/-! ## Members -/

/-- An identifier for a field name, not yet unique. -/
def identifierFor (name : String) : String :=
  let base := Naming.snake name
  let base := if base.isEmpty then "field" else base
  let base := if base.toList.head?.any Char.isDigit then "field_" ++ base else base
  if reservedWords.contains base then base ++ "_" else base

structure Member where
  identifier : String
  view : FieldView
  type : MemberType
  /-- Whether the value may be missing. -/
  optional : Bool

/-- Members with unique identifiers; `used` are the identifiers so far. -/
def Member.ofFields (names : TypeNames) (used : List String) : List FieldView → List Member
  | [] => []
  | f :: fs =>
    let name := Naming.uniqueName used (identifierFor f.name)
    ⟨name, f, .ofType names f.type, f.nullable || !f.required⟩ :: ofFields names (name :: used) fs

/-- The type of the stored value. -/
def Member.storedText (m : Member) : String :=
  if m.optional then "Option<" ++ m.type.text ++ ">" else m.type.text

/-- The lines of a member in its struct. -/
def Member.lines (m : Member) : List String :=
  (m.view.defaultValue.map fun d => "/// Default: `" ++ Json.compact d ++ "`.").toList
    ++ (if m.identifier = m.view.name then [] else
          ["#[serde(rename = " ++ quoted m.view.name ++ ")]"])
    ++ (if m.optional then
          ["#[serde(default, skip_serializing_if = \"Option::is_none\")]"] else [])
    ++ [m.identifier ++ ": " ++ m.storedText ++ ","]

/-! ## Methods -/

structure Method where
  /-- The lines before the method. -/
  attributes : List String
  name : String
  parameters : String
  result : String
  body : List String

/-- A name without the underscores at its end. -/
def withoutUnderscores (name : String) : String :=
  String.ofList (name.toList.reverse.dropWhile (· == '_')).reverse

namespace Member

/-- The place of the member inside a method. -/
def place (m : Member) : String := "self." ++ m.identifier

/-- Hands out the value. -/
def getter (m : Member) : Method where
  attributes := (m.view.deprecated.map fun note => "#[deprecated(note = " ++ quoted note ++ ")]").toList
  name := m.identifier
  parameters := "&self"
  result := "&" ++ m.storedText
  body := ["&" ++ m.place]

/-- Puts a value in place. -/
def setter (m : Member) : Method where
  attributes := []
  name := "set_" ++ withoutUnderscores m.identifier
  parameters := "&mut self, value: " ++ m.storedText
  result := "&mut Self"
  body := [m.place ++ " = value;", "self"]

/-- Puts a value in place and hands on the struct. -/
def wither (m : Member) : Method where
  attributes := []
  name := "with_" ++ withoutUnderscores m.identifier
  parameters := "mut self, value: " ++ m.storedText
  result := "Self"
  body := [m.place ++ " = value;", "self"]

/-- The name of one element in method names. -/
def itemName (m : Member) : String :=
  withoutUnderscores (identifierFor (m.view.singularName.getD m.view.name))

/-- The collection inside a method; a missing one is made. -/
def collectionPlace (m : Member) (empty : String) : String :=
  if m.optional then m.place ++ ".get_or_insert_with(" ++ empty ++ ")" else m.place

/-- Something done with the collection, if there is one. -/
def whenPresent (m : Member) (name action : String) : List String :=
  if m.optional then
    ["if let Some(" ++ name ++ ") = " ++ m.place ++ ".as_mut() \x7b",
     "    " ++ name ++ action, "\x7d"]
  else [m.place ++ action]

/-- Adds an element to a map or to a list. -/
def adder (m : Member) (isMap : Bool) : Method where
  attributes := []
  name := "add_" ++ m.itemName
  parameters :=
    "&mut self, " ++ (if isMap then "key: impl Into<String>, " else "") ++ "value: "
      ++ m.type.element.text
  result := "&mut Self"
  body :=
    [if isMap then m.collectionPlace "BTreeMap::new" ++ ".insert(key.into(), value);"
     else m.collectionPlace "Vec::new" ++ ".push(value);",
     "self"]

/-- Takes an element from a map or from a list. -/
def remover (m : Member) (isMap : Bool) : Method where
  attributes := []
  name := "remove_" ++ m.itemName
  parameters := "&mut self, " ++ (if isMap then "key: &str" else "value: &" ++ m.type.element.text)
  result := "&mut Self"
  body :=
    (if isMap then m.whenPresent "map" ".remove(key);"
     else m.whenPresent "items" ".retain(|item| item != value);") ++ ["self"]

/-- The methods for a member of a struct. -/
def methods (immutable : Bool) (m : Member) : List Method :=
  [m.getter] ++ (if immutable then [] else [m.setter]) ++ [m.wither]
    ++ (if immutable then [] else
          match m.view.holding with
          | .single => []
          | .list => [m.adder false, m.remover false]
          | .map => [m.adder true, m.remover true])

end Member

/-! ## Structs -/

structure Struct where
  name : String
  /-- The struct of the parent. -/
  parent : Option String
  members : List Member
  methods : List Method

/-- The name of the struct for a definition. -/
def structName (names : TypeNames) (name : String) : String := (names.lookup name).getD "Value"

def Struct.ofDefinition (names : TypeNames) (d : DefinitionView) : Struct :=
  let members := Member.ofFields names [] d.fields
  { name := structName names d.name
    parent := d.parent.map (structName names)
    members
    methods := members.flatMap (Member.methods d.immutable) }

/-! ## Text -/

/-- Lines that are indented by some steps of four columns. -/
def indented (steps : Nat) (lines : List String) : String :=
  String.join <| lines.map fun line =>
    String.ofList (List.replicate (4 * steps) ' ') ++ line ++ "\n"

def Method.text (m : Method) : String :=
  indented 1 m.attributes
    ++ indented 1 ["pub fn " ++ m.name ++ "(" ++ m.parameters ++ ") -> " ++ m.result ++ " \x7b"]
    ++ indented 2 m.body ++ indented 1 ["\x7d"]

def Struct.text (s : Struct) : String :=
  ((s.parent.map fun p => "/// Extends [`" ++ p ++ "`]; inherited fields are inlined.\n").getD "")
    ++ "#[derive(Debug, Clone, Default, PartialEq, Serialize, Deserialize)]\n"
    ++ "pub struct " ++ s.name ++ " \x7b\n"
    ++ String.join (s.members.map fun m => indented 1 m.lines)
    ++ "\x7d\n"
    ++ (if s.methods.isEmpty then ""
        else
          "\nimpl " ++ s.name ++ " \x7b\n" ++ "\n".intercalate (s.methods.map Method.text) ++ "\x7d\n")

/-- The structs of a view. -/
def structs (v : ViewModel) : List Struct :=
  let names := nameTypes reservedWords.contains [] v.definitions
  v.definitions.map (.ofDefinition names)

/-- The lines that import the names which some types use. -/
def imports (types : List MemberType) : String :=
  "use serde::\x7bDeserialize, Serialize\x7d;\n"
    ++ (if types.any (·.usesValue) then "use serde_json::Value;\n" else "")
    ++ (if types.any (·.usesMap) then "use std::collections::BTreeMap;\n" else "")

/-- The file of all structs. -/
def write (v : ViewModel) : String :=
  banner "Rust"
    ++ (if v.definitions.isEmpty then emptyNote
        else
          let ss := structs v
          imports (ss.flatMap fun s => s.members.map (·.type)) ++ "\n"
            ++ "\n".intercalate (ss.map Struct.text))

end RecordDefinitions.Structs
