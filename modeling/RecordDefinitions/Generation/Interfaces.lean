import RecordDefinitions.Generation.Names
import RecordDefinitions.Json.Writer

/-!
# TypeScript interfaces

One interface per definition. An interface extends that of the parent and lists
only what the definition declares itself. What it declares again is first left
out of the parent, because a wider type cannot replace an inherited one. Types are
kept apart from their text.
-/

namespace RecordDefinitions.Interfaces

open Generation

/-- The words that are no plain names. -/
def reservedWords : List String := [
  "break", "case", "catch", "class", "const", "continue", "debugger", "default", "delete", "do",
  "else", "enum", "export", "extends", "false", "finally", "for", "function", "if", "import",
  "in", "instanceof", "new", "null", "return", "super", "switch", "this", "throw", "true", "try",
  "typeof", "var", "void", "while", "with", "as", "implements", "interface", "let", "package",
  "private", "protected", "public", "static", "yield", "any", "boolean", "constructor",
  "declare", "get", "module", "require", "number", "set", "string", "symbol", "type", "from",
  "of", "readonly", "keyof", "unknown", "never", "object"]

/-! ## Types -/

inductive PropertyType where
  | number
  | string
  | boolean
  | unknown
  | function
  | iterable
  | array (element : PropertyType)
  /-- An object with any keys and values of one type. -/
  | record (element : PropertyType)
  | named (name : String)
  | union (members : List PropertyType)

namespace PropertyType

/-- The type of a scalar kind. -/
def ofScalar : ScalarKind → PropertyType
  | .int | .float => number
  | .string => string
  | .bool => boolean
  | .object => record unknown
  | .callable => function
  | .iterable => iterable
  | .mixed | .resource => unknown

/-- The interface of a definition; a definition without one may be anything. -/
def ofName (names : TypeNames) (name : String) : PropertyType :=
  ((names.lookup name).map named).getD unknown

mutual

def ofType (names : TypeNames) : TypeExpr → PropertyType
  | .scalar kind => ofScalar kind
  | .list element => array (ofType names element)
  | .map element => record (ofType names element)
  | .definition name => ofName names name
  | .external _ => unknown
  | .union members => union (ofTypes names members)

def ofTypes (names : TypeNames) : List TypeExpr → List PropertyType
  | [] => []
  | t :: ts => ofType names t :: ofTypes names ts

end

/-- Whether the text of a type needs parentheses before a bar. -/
def isOpen : PropertyType → Bool
  | function => true
  | _ => false

mutual

def text : PropertyType → String
  | number => "number"
  | string => "string"
  | boolean => "boolean"
  | unknown => "unknown"
  | function => "(...args: unknown[]) => unknown"
  | iterable => "Iterable<unknown>"
  | array element => "Array<" ++ text element ++ ">"
  | record element => "Record<string, " ++ text element ++ ">"
  | named name => name
  | union members => " | ".intercalate (memberTexts members)

def memberTexts : List PropertyType → List String
  | [] => []
  | t :: ts => (if t.isOpen then "(" ++ text t ++ ")" else text t) :: memberTexts ts

end

end PropertyType

/-! ## Members -/

structure Property where
  /-- The lines of the comment before the member. -/
  notes : List String
  readonly : Bool
  name : String
  optional : Bool
  type : PropertyType
  nullable : Bool

structure Interface where
  name : String
  parent : Option String
  /-- The names that are left out of the parent. -/
  omitted : List String
  members : List Property

def Property.ofField (names : TypeNames) (immutable : Bool) (f : FieldView) : Property where
  notes :=
    (f.deprecated.map ("@deprecated " ++ ·)).toList
      ++ (f.defaultValue.map fun d => "@default " ++ Json.compact d).toList
  readonly := immutable
  name := f.name
  optional := !f.required
  type := .ofType names f.type
  nullable := f.nullable

/-- The name of the interface for a definition. -/
def interfaceName (names : TypeNames) (name : String) : String :=
  (names.lookup name).getD "unknown"

def Interface.ofDefinition (names : TypeNames) (d : DefinitionView) : Interface :=
  let fields := if d.parent.isSome then d.ownFields else d.fields
  { name := interfaceName names d.name
    parent := d.parent.map (interfaceName names)
    omitted := (fields.filter fun f => f.overrides.isSome).map (·.name)
    members := fields.map (.ofField names d.immutable) }

/-! ## Text -/

/-- Letters, digits, underscores and dollar signs that do not start with a digit. -/
def isIdentifier (text : String) : Bool :=
  match text.toList with
  | [] => false
  | c :: cs =>
    (c == '_' || c == '$' || c.isAlpha) && cs.all fun d => d == '_' || d == '$' || d.isAlphanum

/-- The name of a member, quoted if it is no plain name. -/
def propertyName (name : String) : String :=
  if isIdentifier name && !reservedWords.contains name then name else quoted name

/-- A comment of one line or of several. -/
def comment : List String → String
  | [] => ""
  | [note] => "  /** " ++ note ++ " */\n"
  | notes => "  /**\n" ++ String.join (notes.map fun note => "   * " ++ note ++ "\n") ++ "   */\n"

def Property.text (p : Property) : String :=
  comment p.notes ++ "  " ++ (if p.readonly then "readonly " else "") ++ propertyName p.name
    ++ (if p.optional then "?" else "") ++ ": " ++ p.type.text
    ++ (if p.nullable then " | null" else "") ++ ";\n"

/-- What follows the name of an interface. -/
def heritage (parent : Option String) (omitted : List String) : String :=
  match parent with
  | none => ""
  | some parent =>
    if omitted.isEmpty then " extends " ++ parent
    else " extends Omit<" ++ parent ++ ", " ++ " | ".intercalate (omitted.map quoted) ++ ">"

def Interface.text (i : Interface) : String :=
  "export interface " ++ i.name ++ heritage i.parent i.omitted ++ " \x7b\n"
    ++ String.join (i.members.map Property.text) ++ "\x7d"

/-- The interfaces of a view. -/
def interfaces (v : ViewModel) : List Interface :=
  let names := nameTypes reservedWords.contains [] v.definitions
  v.definitions.map (.ofDefinition names)

/-- The file of all interfaces. -/
def write (v : ViewModel) : String :=
  banner "TypeScript"
    ++ (if v.definitions.isEmpty then emptyNote
        else "\n" ++ "\n\n".intercalate ((interfaces v).map Interface.text) ++ "\n")

end RecordDefinitions.Interfaces
