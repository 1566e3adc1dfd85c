import RecordDefinitions.Text.Blank
import RecordDefinitions.Text.Pieces
import RecordDefinitions.TypeExpr.Basic

/-!
# Reading types

The grammar of type texts. A text is an optional question mark and one or more
alternatives separated by bars. An alternative is `null` or a member: a
keyword, `array`, `array<E>`, `array<int, E>`, `array<string, E>`, a member
followed by `[]`, a path of identifiers that each follow a backslash, or a
dotted path of identifiers whose last one starts with a capital letter. Inside
the angle brackets stands again such a text, without a question mark and
without `null`. Blanks may surround every part.
-/

namespace RecordDefinitions.TypeExpr

/-- Why a text is not the type asked for. -/
inductive Fault where
  /-- The text is no type. -/
  | malformed (text : String)
  /-- The text allows null where only a field may say so. -/
  | carriesNull (text : String)
  deriving DecidableEq

/-- The wording of a fault. -/
def Fault.message : Fault → String
  | .malformed text => "invalid type string '" ++ text ++ "'"
  | .carriesNull text =>
    "type '" ++ text ++ "' carries null; nullability belongs on the field"

/-- ASCII letters, digits and underscores that do not start with a digit. -/
def isIdentifier : List Char → Bool
  | [] => false
  | c :: cs => (c.isAlpha || c == '_') && cs.all fun d => d.isAlphanum || d == '_'

/-- Dotted identifiers; the last one starts with a capital letter. -/
def isDefinitionName (text : List Char) : Bool :=
  let parts := Text.pieces (· == '.') text
  parts.all isIdentifier && (parts.getLast?.bind List.head?).any Char.isUpper

/-- The identifiers of an external path, each after a backslash. -/
def externalPath? (text : List Char) : Option (List Char) :=
  match text with
  | '\\' :: path =>
    if (Text.pieces (· == '\\') path).all isIdentifier then some path else none
  | _ => none

/-- The pieces between separators that stand outside all angle brackets. Depth
may fall below zero; a separator counts at depth zero only. -/
def topLevelPieces (separator : Char) (depth : Int) : List Char → List (List Char)
  | [] => [[]]
  | c :: cs =>
    if c = separator ∧ depth = 0 then [] :: topLevelPieces separator 0 cs
    else
      let inner := if c = '<' then depth + 1 else if c = '>' then depth - 1 else depth
      match topLevelPieces separator inner cs with
      | [] => [[c]]
      | p :: ps => (c :: p) :: ps

/-- The text between `array<` and a final `>`. -/
def arrayArguments? (text : List Char) : Option (List Char) :=
  (Text.after? "array<".toList text).bind (Text.before? ['>'])

/-- A name without brackets: a keyword, an external path or a definition. -/
def readName? (part : List Char) : Option TypeExpr :=
  match ScalarKind.ofKeyword? (String.ofList part) with
  | some kind => some (scalar kind)
  | none =>
    match part with
    | '\\' :: _ => (externalPath? part).map fun path => external (String.ofList path)
    | _ => if isDefinitionName part then some (definition (String.ofList part)) else none

mutual

/-- A text with alternatives, and whether it allows null. Alternatives that are
all `null` leave `mixed`. The fuel is spent on nesting only. -/
def readText (fuel : Nat) (text : List Char) : Except Fault (TypeExpr × Bool) :=
  match fuel with
  | 0 => .error (.malformed (String.ofList text))
  | fuel + 1 => do
    let (body, marked) :=
      match Text.trim text with
      | '?' :: rest => (rest, true)
      | whole => (whole, false)
    if body.isEmpty then throw (.malformed (String.ofList text))
    let parts := (topLevelPieces '|' 0 body).map Text.trim
    let isNull := fun part => part == "null".toList
    let members ← (parts.filter fun part => !isNull part).mapM (readMember fuel text)
    if members.isEmpty then return (scalar .mixed, true)
    return (unionOf members, marked || parts.any isNull)

/-- One alternative other than `null`; `whole` is the text that a fault names. -/
def readMember (fuel : Nat) (whole part : List Char) : Except Fault TypeExpr :=
  match fuel with
  | 0 => .error (.malformed (String.ofList whole))
  | fuel + 1 =>
    let malformed := Fault.malformed (String.ofList whole)
    if part.isEmpty then .error malformed
    else
      match Text.before? ['[', ']'] part with
      | some inner => (readMember fuel whole (Text.trim inner)).map list
      | none =>
        if part = "array".toList then .ok (map (scalar .mixed))
        else
          match arrayArguments? part with
          | some inner =>
            match topLevelPieces ',' 0 inner with
            | [element] => (readElement fuel whole element).map list
            | [key, element] =>
              if Text.trim key = "string".toList then
                (readElement fuel whole element).map map
              else if Text.trim key = "int".toList then
                (readElement fuel whole element).map list
              else .error malformed
            | _ => .error malformed
          | none =>
            match readName? part with
            | some t => .ok t
            | none => .error malformed

/-- The text of an element type, which may not allow null. -/
def readElement (fuel : Nat) (whole text : List Char) : Except Fault TypeExpr :=
  match fuel with
  | 0 => .error (.malformed (String.ofList whole))
  | fuel + 1 => do
    let (t, nullable) ← readText fuel text
    if nullable then throw (.malformed (String.ofList whole))
    return t

end

/-- Read the type of a field: the type and whether null is allowed. Every third
level of nesting takes a character off the text. -/
def readNullable (text : String) : Except Fault (TypeExpr × Bool) :=
  readText (3 * text.toList.length + 3) text.toList

/-- Read a type that does not allow null. -/
def read (text : String) : Except Fault TypeExpr := do
  let (t, nullable) ← readNullable text
  if nullable then throw (.carriesNull text)
  return t

end RecordDefinitions.TypeExpr
