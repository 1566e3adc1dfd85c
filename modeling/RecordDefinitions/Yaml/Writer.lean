import RecordDefinitions.Decimal.Layout
import RecordDefinitions.Yaml.Scalar

/-!
# YAML texts

A document as YAML text in block style. Objects and lists without content are
written in brackets. A string stands plain where it can be read back as that
string; else it is quoted, and a string of several lines becomes a literal
block. Lines are never wrapped.
-/

namespace RecordDefinitions.Yaml

/-- Fractional numbers as in JSON, but a positive exponent has no sign. -/
def layout : Decimal.Layout := ⟨-5, 16, ""⟩

/-! ## How a string can be written -/

/-- The characters that may stand unescaped; a tab may not. -/
def isPrintable (c : Char) : Bool :=
  let n := c.toNat
  n == 0x0A || (0x20 ≤ n && n ≤ 0x7E)
    || (0xA0 ≤ n && n ≠ 0xFEFF && n ≠ 0xFFFE && n ≠ 0xFFFF)

/-- The characters that a plain scalar never starts with. -/
def leadingIndicators : List Char :=
  "#,[]&*!|>'\"%@`".toList ++ [Char.ofNat 0x7B, Char.ofNat 0x7D]

/-- Whether the characters after the first hold an indicator: a colon at the end
of a word or a hash at the start of one. `before` says whether a word starts. -/
def hasIndicator (before : Bool) : List Char → Bool
  | [] => false
  | c :: rest =>
    (c == ':' && endsWord rest.head?) || (c == '#' && before)
      || hasIndicator (endsWord (some c)) rest

/-- Whether a text would be taken for something else than a plain scalar in block
style. -/
def hasBlockIndicator (text : List Char) : Bool :=
  text.take 3 == ['-', '-', '-'] || text.take 3 == ['.', '.', '.']
    || (match text with
        | [] => false
        | c :: rest =>
          leadingIndicators.contains c
            || ((c == '?' || c == ':' || c == '-') && endsWord rest.head?)
            || hasIndicator (endsWord (some c)) rest)

/-- Whether a character with one property stands right before one with another. -/
def hasPair (p q : Char → Bool) : List Char → Bool
  | a :: b :: rest => (p a && q b) || hasPair p q (b :: rest)
  | _ => false

/-- What decides in which styles a text can be written. -/
structure Traits where
  /-- Some character has to be escaped. -/
  special : Bool
  /-- Some line ends in a space. -/
  spaceBreak : Bool
  /-- Some line starts with a space. -/
  breakSpace : Bool
  trailingSpace : Bool
  multiline : Bool
  plain : Bool

def isSpace (c : Char) : Bool := c == ' '

def traits (text : List Char) : Traits :=
  let special := !text.all isPrintable
  let spaceBreak := hasPair isSpace isBreak text
  let breakSpace := hasPair isBreak isSpace text
  let multiline := text.any isBreak
  { special, spaceBreak, breakSpace, multiline
    trailingSpace := text.getLast?.any isSpace
    plain :=
      !(special || spaceBreak || breakSpace || multiline || hasBlockIndicator text
        || text.isEmpty || text.head?.any isSpace || text.getLast?.any isSpace) }

/-- The style of a string. A text with a line feed is a literal block if a block
is possible; another text is plain if it then denotes itself. -/
def styleOf (text : String) : ScalarStyle :=
  let t := traits text.toList
  if text.toList.contains '\n' then
    if t.special || t.spaceBreak || t.trailingSpace then .doubleQuoted else .literal
  else
    let denotesItself :=
      (match plainValue text with | .string => true | _ => false)
        && !isPaddedDigits text.toList
    if t.plain && denotesItself then .plain
    else if t.special || t.spaceBreak || t.breakSpace then .doubleQuoted
    else .singleQuoted

/-! ## Scalars -/

/-- Spaces before a line. -/
def pad (indent : Nat) : List Char := List.replicate indent ' '

/-- A digit of base sixteen, in upper case. -/
def hexDigit (d : Nat) : Char := if d < 10 then Char.ofNat (48 + d) else Char.ofNat (55 + d)

/-- The last `width` digits of a number in base sixteen. -/
def hexDigits (width n : Nat) : List Char :=
  match width with
  | 0 => []
  | width + 1 => hexDigits width (n / 16) ++ [hexDigit (n % 16)]

/-- The escape of a character. -/
def escape (c : Char) : List Char :=
  match c.toNat with
  | 0x00 => ['\\', '0']
  | 0x07 => ['\\', 'a']
  | 0x08 => ['\\', 'b']
  | 0x09 => ['\\', 't']
  | 0x0A => ['\\', 'n']
  | 0x0B => ['\\', 'v']
  | 0x0C => ['\\', 'f']
  | 0x0D => ['\\', 'r']
  | 0x1B => ['\\', 'e']
  | 0x22 => ['\\', '"']
  | 0x5C => ['\\', '\\']
  | 0x85 => ['\\', 'N']
  | 0x2028 => ['\\', 'L']
  | 0x2029 => ['\\', 'P']
  | n =>
    if n ≤ 0xFF then '\\' :: 'x' :: hexDigits 2 n
    else if n ≤ 0xFFFF then '\\' :: 'u' :: hexDigits 4 n
    else '\\' :: 'U' :: hexDigits 8 n

/-- A character between double quotes. -/
def doubleQuotedChar (c : Char) : List Char :=
  if !isPrintable c || isBreak c || c == '"' || c == '\\' then escape c else [c]

/-- A text after an opening single quote, with the closing one. `broken` says
whether a line has just been broken; the next character is indented then. -/
def singleQuotedText (indent : Nat) (broken : Bool) : List Char → List Char
  | [] => (if broken then pad indent else []) ++ ['\'']
  | c :: rest =>
    if isSpace c then c :: singleQuotedText indent broken rest
    else if isBreak c then c :: singleQuotedText indent true rest
    else
      (if broken then pad indent else []) ++ (if c == '\'' then ['\'', '\''] else [c])
        ++ singleQuotedText indent false rest

/-- The lines of a literal block. -/
def literalLines (indent : Nat) (broken : Bool) : List Char → List Char
  | [] => []
  | c :: rest =>
    if isBreak c then c :: literalLines indent true rest
    else (if broken then pad indent else []) ++ c :: literalLines indent false rest

/-- The marks of a literal block: its indentation where the text does not show
it, and what happens to the breaks at its end. -/
def literalMarks (text : List Char) : List Char :=
  (if text.head?.any fun c => isSpace c || isBreak c then ['2'] else [])
    ++ (match text.reverse with
        | [] => ['-']
        | last :: before =>
          if !isBreak last then ['-']
          else if before.isEmpty || before.head?.any isBreak then ['+'] else [])

/-- A string, inside a block at `indent`, up to the end of its line. -/
def scalarText (indent : Nat) (s : String) : List Char :=
  let text := s.toList
  match styleOf s with
  | .plain => text ++ ['\n']
  | .singleQuoted => '\'' :: singleQuotedText (indent + 2) false text ++ ['\n']
  | .literal | .folded =>
    '|' :: literalMarks text ++ '\n' :: literalLines (indent + 2) true text
      ++ (if text.getLast?.any isBreak then [] else ['\n'])
  | .doubleQuoted => '"' :: text.flatMap doubleQuotedChar ++ ['"', '\n']

/-- A number. -/
def numeral : Number → String
  | .integer i => Decimal.signedText i
  | .real bits => layout.write bits

/-- A document that takes one line or is a string, up to the end of its line. -/
def atomText (indent : Nat) : Document → List Char
  | .null => "null\n".toList
  | .bool b => (if b then "true\n" else "false\n").toList
  | .number n => (numeral n).toList ++ ['\n']
  | .string s => scalarText indent s
  | .array _ => "[]\n".toList
  | .object _ => "\x7b\x7d\n".toList

/-! ## Blocks -/

/-- The greatest number of octets of a key that stands before its colon. -/
def simpleKeyLimit : Nat := 128

/-- Whether a key stands before its colon on one line. -/
def isSimpleKey (key : String) : Bool :=
  !key.toList.any isBreak && key.utf8ByteSize ≤ simpleKeyLimit

/-- A key before its colon. -/
def simpleKey (key : String) : List Char := (scalarText 0 key).dropLast

/-- Put the lines of a block below one another: all but the first are indented,
and the first as well unless the block starts on the line before. -/
def stacked (indent : Nat) (inline : Bool) : List (List Char) → List Char
  | [] => []
  | first :: rest => (if inline then [] else pad indent) ++ first ++ rest.flatMap (pad indent ++ ·)

mutual

/-- An inner document after the mark of an item or of a value, on the same line. -/
def inlineText (indent : Nat) : Document → List Char
  | .array (d :: ds) => stacked (indent + 2) true (itemTexts (indent + 2) (d :: ds))
  | .object (m :: ms) => stacked (indent + 2) true (memberTexts (indent + 2) (m :: ms))
  | .array [] => atomText indent (.array [])
  | .object [] => atomText indent (.object [])
  | .null => atomText indent .null
  | .bool b => atomText indent (.bool b)
  | .number n => atomText indent (.number n)
  | .string s => atomText indent (.string s)

/-- The document after a simple key. A list starts at the column of the key, an
object two columns to its right. -/
def valueText (indent : Nat) : Document → List Char
  | .array (d :: ds) => '\n' :: stacked indent false (itemTexts indent (d :: ds))
  | .object (m :: ms) => '\n' :: stacked (indent + 2) false (memberTexts (indent + 2) (m :: ms))
  | .array [] => ' ' :: atomText indent (.array [])
  | .object [] => ' ' :: atomText indent (.object [])
  | .null => ' ' :: atomText indent .null
  | .bool b => ' ' :: atomText indent (.bool b)
  | .number n => ' ' :: atomText indent (.number n)
  | .string s => ' ' :: atomText indent (.string s)

/-- The items of a list at a column, each with its hyphen. -/
def itemTexts (indent : Nat) : List Document → List (List Char)
  | [] => []
  | d :: ds => ('-' :: ' ' :: inlineText indent d) :: itemTexts indent ds

/-- The members of an object at a column. -/
def memberTexts (indent : Nat) : List (String × Document) → List (List Char)
  | [] => []
  | (key, d) :: rest =>
    (if isSimpleKey key then simpleKey key ++ ':' :: valueText indent d
     else
      '?' :: ' ' :: scalarText indent key ++ pad indent ++ ':' :: ' ' :: inlineText indent d)
      :: memberTexts indent rest

end

/-- A document as text, which ends with a line feed. -/
def write (d : Document) : String :=
  String.ofList <|
    match d with
    | .array (d :: ds) => stacked 0 false (itemTexts 0 (d :: ds))
    | .object (m :: ms) => stacked 0 false (memberTexts 0 (m :: ms))
    | d => atomText 0 d

end RecordDefinitions.Yaml
