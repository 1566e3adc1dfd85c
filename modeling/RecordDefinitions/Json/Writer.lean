import RecordDefinitions.Decimal.Layout
import RecordDefinitions.Document.Basic

/-!
# JSON texts

A document as JSON text, without any space (`compact`) or with one member or
item on a line, two spaces deeper than the bracket that holds it (`pretty`).
Members keep their order, and only quotes, backslashes and control characters
below the space are escaped.
-/

namespace RecordDefinitions.Json

/-- Fractional numbers from `0.00001` up to below `10^16` have no exponent, and
a positive exponent has a sign. -/
def layout : Decimal.Layout := ⟨-5, 16, "+"⟩

/-- A digit of base sixteen, in lower case. -/
def hexDigit (d : Nat) : Char := if d < 10 then Char.ofNat (48 + d) else Char.ofNat (87 + d)

/-- One character inside a quoted string. -/
def escaped (c : Char) : List Char :=
  match c.toNat with
  | 0x22 => ['\\', c]
  | 0x5C => ['\\', c]
  | 0x08 => ['\\', 'b']
  | 0x0C => ['\\', 'f']
  | 0x0A => ['\\', 'n']
  | 0x0D => ['\\', 'r']
  | 0x09 => ['\\', 't']
  | n =>
    if n < 0x20 then ['\\', 'u', '0', '0', hexDigit (n / 16), hexDigit (n % 16)] else [c]

/-- A string in quotes. -/
def quoted (s : String) : String :=
  "\"" ++ String.ofList (s.toList.flatMap escaped) ++ "\""

/-- A number; a fractional one always has a point or an exponent. -/
def numeral : Number → String
  | .integer i => Decimal.signedText i
  | .real bits => layout.write bits

/-- Documents without inner documents. -/
def atom : Document → String
  | .bool true => "true"
  | .bool false => "false"
  | .number n => numeral n
  | .string s => quoted s
  | _ => "null"

mutual

/-- A document on one line without spaces. -/
def compact : Document → String
  | .array items => "[" ++ ",".intercalate (compactItems items) ++ "]"
  | .object members => "\x7b" ++ ",".intercalate (compactMembers members) ++ "\x7d"
  | .null => atom .null
  | .bool b => atom (.bool b)
  | .number n => atom (.number n)
  | .string s => atom (.string s)

def compactItems : List Document → List String
  | [] => []
  | d :: ds => compact d :: compactItems ds

def compactMembers : List (String × Document) → List String
  | [] => []
  | (k, d) :: rest => (quoted k ++ ":" ++ compact d) :: compactMembers rest

end

/-- A new line that starts at a depth. -/
def lineAt (depth : Nat) : String := "\n" ++ String.ofList (List.replicate (2 * depth) ' ')

/-- Lines between two brackets; brackets without lines stay together. -/
def bracketed (opening closing : String) (depth : Nat) : List String → String
  | [] => opening ++ closing
  | lines =>
    opening ++ ",".intercalate (lines.map (lineAt (depth + 1) ++ ·)) ++ lineAt depth ++ closing

mutual

/-- A document with its inner lines two spaces deeper than `depth`. -/
def prettyAt (depth : Nat) : Document → String
  | .array items => bracketed "[" "]" depth (prettyItems (depth + 1) items)
  | .object members => bracketed "\x7b" "\x7d" depth (prettyMembers (depth + 1) members)
  | .null => atom .null
  | .bool b => atom (.bool b)
  | .number n => atom (.number n)
  | .string s => atom (.string s)

def prettyItems (depth : Nat) : List Document → List String
  | [] => []
  | d :: ds => prettyAt depth d :: prettyItems depth ds

def prettyMembers (depth : Nat) : List (String × Document) → List String
  | [] => []
  | (k, d) :: rest => (quoted k ++ ": " ++ prettyAt depth d) :: prettyMembers depth rest

end

/-- A document on several lines. -/
def pretty (d : Document) : String := prettyAt 0 d

end RecordDefinitions.Json
