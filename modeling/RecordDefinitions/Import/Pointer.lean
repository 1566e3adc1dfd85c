import RecordDefinitions.Document.Basic
import RecordDefinitions.Text.Escaped
import RecordDefinitions.Text.Pieces

/-!
# Pointers

A pointer leads from a document to one of its parts: every segment after a slash
is a key of an object or the place of an item. In a segment `~1` stands for a
slash and `~0` for a tilde, and octets may be escaped with percent signs, as in
the fragment of a reference.
-/

namespace RecordDefinitions.Pointer

/-- Put a character in place of a tilde with another one behind it. -/
def replacing (code character : Char) : List Char → List Char
  | '~' :: c :: rest =>
    if c = code then character :: replacing code character rest
    else '~' :: replacing code character (c :: rest)
  | c :: rest => c :: replacing code character rest
  | [] => []

/-- A decoded segment with its tildes resolved. -/
def unescaped (segment : List Char) : List Char := replacing '0' '~' (replacing '1' '/' segment)

/-- The key that a segment stands for, unless its octets encode no text. -/
def keyOf? (segment : List Char) : Option String :=
  (Text.decoded? segment).map fun cs => String.ofList (unescaped cs)

/-- The greatest number of items that a place can count. -/
def placeLimit : Nat := Nat.pow 2 64

/-- The place of an item: digits, and a plus sign in front does no harm. -/
def placeOf? (key : String) : Option Nat :=
  let ds :=
    match key.toList with
    | '+' :: ds => ds
    | ds => ds
  (Decimal.ofBase? 10 ds).filter (· < placeLimit)

/-- The part of a document that one key leads to. -/
def step? (d : Document) (key : String) : Option Document :=
  match d with
  | .object members => (findNamed? key members).map Prod.snd
  | .array items => (placeOf? key).bind (items[·]?)
  | _ => none

/-- The segments of a pointer. The empty pointer has none; any other starts with a
slash. -/
def segments? (pointer : String) : Option (List (List Char)) :=
  match pointer.toList with
  | [] => some []
  | '/' :: rest => some (Text.pieces (· == '/') rest)
  | _ => none

/-- The part of a document that a pointer leads to. -/
def find? (d : Document) (pointer : String) : Option Document := do
  (← segments? pointer).foldlM (fun d segment => do step? d (← keyOf? segment)) d

/-- A key as a segment of a pointer. -/
def escapedSegment (key : String) : String :=
  String.ofList <| key.toList.flatMap fun c =>
    if c = '~' then ['~', '0'] else if c = '/' then ['~', '1'] else [c]

/-- A segment with its octets decoded, or as it is if they encode no text. -/
def decodedSegment (segment : List Char) : List Char := (Text.decoded? segment).getD segment

/-- A pointer whose segments are decoded, for telling whether two are the same. -/
def decoded (pointer : String) : String :=
  String.ofList <| Text.joined '/' <|
    (Text.pieces (· == '/') pointer.toList).map decodedSegment

/-- The key at the end of a pointer, if its last segment is not empty. -/
def lastKey? (pointer : String) : Option String :=
  let last := ((Text.pieces (· == '/') pointer.toList).getLast?).getD []
  if last.isEmpty then none else some (String.ofList (unescaped (decodedSegment last)))

end RecordDefinitions.Pointer
