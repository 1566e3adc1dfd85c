import RecordDefinitions.Decimal.Digits

/-!
# Positions in a YAML text

The characters that YAML treats alike, and a cursor: the text that is still to
be read with the line and column where it starts. Line breaks are read as one
line feed, except the separators of Unicode, which stand for themselves.
-/

namespace RecordDefinitions.Yaml

/-- A place in a text, counted from zero. -/
structure Place where
  line : Nat
  column : Nat

/-- What is wrong with a text, and where, if that is one place. -/
structure Fault where
  problem : String
  place : Option Place

/-- The problem and its place, counted from one. -/
def Fault.message (f : Fault) : String :=
  match f.place with
  | none => f.problem
  | some p =>
    f.problem ++ " at line " ++ Decimal.text (p.line + 1) ++ " column "
      ++ Decimal.text (p.column + 1)

/-- Spaces and tabs. -/
def isBlank (c : Char) : Bool := c == ' ' || c == '\t'

/-- Carriage return, line feed, next line, and the two Unicode separators. -/
def isBreak (c : Char) : Bool :=
  c == '\r' || c == '\n' || c.toNat == 0x85 || c.toNat == 0x2028 || c.toNat == 0x2029

/-- A blank, a break, or the end of the text. -/
def endsWord : Option Char → Bool
  | none => true
  | some c => isBlank c || isBreak c

/-- ASCII letters, digits, underscores and hyphens. -/
def isWordChar (c : Char) : Bool := c.isAlphanum || c == '_' || c == '-'

/-- The characters that may stand in a text at all: no controls except tab and
the breaks, no surrogates, no last two code points of the first plane. -/
def isAllowed (c : Char) : Bool :=
  let n := c.toNat
  n == 0x09 || n == 0x0A || n == 0x0D || (0x20 ≤ n && n ≤ 0x7E) || n == 0x85
    || (0xA0 ≤ n && n ≤ 0xFFFD) || 0x10000 ≤ n

/-- The mark that may stand before the first character of a line. -/
def byteOrderMark : Char := Char.ofNat 0xFEFF

/-- The number of octets that characters take in UTF-8. -/
def octetCount (cs : List Char) : Nat := cs.foldl (fun n c => n + c.utf8Size) 0

/-- The text that is still to be read, and where it starts. -/
structure Cursor where
  rest : List Char
  /-- The number of octets before the place. -/
  offset : Nat
  line : Nat
  column : Nat

namespace Cursor

/-- The start of a text. -/
def start (text : List Char) : Cursor := ⟨text, 0, 0, 0⟩

def fail {α : Type} (c : Cursor) (problem : String) : Except Fault α :=
  .error ⟨problem, some ⟨c.line, c.column⟩⟩

/-- The next character. -/
def head? (c : Cursor) : Option Char := c.rest.head?

/-- The character after `n` others. -/
def peek? (c : Cursor) (n : Nat) : Option Char := c.rest[n]?

/-- Pass `n` characters that are no breaks. -/
def skip (c : Cursor) (n : Nat) : Cursor :=
  let passed := c.rest.take n
  { c with
    rest := c.rest.drop n
    offset := c.offset + octetCount passed
    column := c.column + passed.length }

/-- The text that the break at the cursor stands for, and the cursor on the next
line. Nothing happens where there is no break. -/
def takeBreak (c : Cursor) : List Char × Cursor :=
  match c.rest with
  | '\r' :: '\n' :: rest => (['\n'], ⟨rest, c.offset + 2, c.line + 1, 0⟩)
  | b :: rest =>
    if isBreak b then
      let n := b.toNat
      (if n == 0x2028 || n == 0x2029 then [b] else ['\n'],
        ⟨rest, c.offset + b.utf8Size, c.line + 1, 0⟩)
    else ([], c)
  | [] => ([], c)

/-- The longest run of characters with a property that no break has. -/
def takeWhile (c : Cursor) (p : Char → Bool) : List Char × Cursor :=
  let run := c.rest.takeWhile p
  (run, c.skip run.length)

/-- Pass the longest run of such characters. -/
def skipWhile (c : Cursor) (p : Char → Bool) : Cursor := (c.takeWhile p).2

/-- Whether the next character is a break. -/
def atBreak (c : Cursor) : Bool := c.head?.any isBreak

/-- Whether the next character is a blank. -/
def atBlank (c : Cursor) : Bool := c.head?.any isBlank

/-- Whether three equal marks stand alone at the start of a line: `---` opens a
document and `...` closes one. -/
def atMarker (c : Cursor) (mark : Char) : Bool :=
  c.column == 0 && c.rest.take 3 == [mark, mark, mark] && endsWord (c.peek? 3)

/-- Whether a document marker stands at the cursor. -/
def atAnyMarker (c : Cursor) : Bool := c.atMarker '-' || c.atMarker '.'

/-- Pass blanks and a comment up to the end of the line, which has to follow. -/
def skipToLineEnd (c : Cursor) : Except Fault Cursor := do
  let c := c.skipWhile isBlank
  let c := if c.head? == some '#' then c.skipWhile (!isBreak ·) else c
  match c.head? with
  | none => return c
  | some b => if isBreak b then return c.takeBreak.2 else c.fail "expected the end of the line"

end Cursor

end RecordDefinitions.Yaml
