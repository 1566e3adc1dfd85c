import RecordDefinitions.Json.Numeral

/-!
# Reading JSON

A JSON text is read from left to right; each function returns what it read and
the text that follows. At most 127 lists and objects may stand inside each
other. Objects keep every member that is written, also those of a repeated key;
`Document.merged` decides between them.
-/

namespace RecordDefinitions.Json

/-- Why a text is not JSON. -/
inductive Fault where
  | endOfText
  | expectedValue
  | expectedKey
  | expectedColon
  | expectedComma
  | controlCharacter
  | badEscape
  | loneSurrogate
  | numeral (fault : NumeralFault)
  | tooDeep
  | textAfterValue

/-- The wording of a fault. -/
def Fault.message : Fault → String
  | .endOfText => "the text ends inside a value"
  | .expectedValue => "expected a value"
  | .expectedKey => "expected a quoted key"
  | .expectedColon => "expected a colon"
  | .expectedComma => "expected a comma or a closing bracket"
  | .controlCharacter => "control character in a string"
  | .badEscape => "invalid escape"
  | .loneSurrogate => "lone surrogate"
  | .numeral .malformed => "invalid number"
  | .numeral .outOfRange => "number out of range"
  | .tooDeep => "too many nested values"
  | .textAfterValue => "text after the value"

/-- The number of nested lists and objects that may be open at once. -/
def depthLimit : Nat := 127

/-- Space, tab, line feed and carriage return. -/
def isSpace (c : Char) : Bool :=
  c.toNat == 0x20 || c.toNat == 0x09 || c.toNat == 0x0A || c.toNat == 0x0D

def skipSpace (cs : List Char) : List Char := cs.dropWhile isSpace

/-- The code unit that four hexadecimal digits denote. -/
def codeUnit (a b c d : Char) : Except Fault Nat :=
  match Decimal.ofBase? 16 [a, b, c, d] with
  | some n => .ok n
  | none => .error .badEscape

/-- The character of an escape letter other than `u`. -/
def escapeLetter (c : Char) : Option Char :=
  match c with
  | '"' => some '"'
  | '\\' => some '\\'
  | '/' => some '/'
  | 'b' => some (Char.ofNat 0x08)
  | 'f' => some (Char.ofNat 0x0C)
  | 'n' => some '\n'
  | 'r' => some '\r'
  | 't' => some '\t'
  | _ => none

/-- The characters up to the closing quote, and what follows it. A character
beyond the first plane is escaped as two surrogates, high before low. -/
def readString : List Char → Except Fault (List Char × List Char)
  | [] => .error .endOfText
  | '"' :: rest => .ok ([], rest)
  | '\\' :: 'u' :: a :: b :: c :: d :: rest => do
    let high ← codeUnit a b c d
    if 0xDC00 ≤ high ∧ high ≤ 0xDFFF then throw .loneSurrogate
    if 0xD800 ≤ high ∧ high ≤ 0xDBFF then
      match rest with
      | '\\' :: 'u' :: e :: f :: g :: h :: rest =>
        let low ← codeUnit e f g h
        if low < 0xDC00 ∨ 0xDFFF < low then throw .loneSurrogate
        let (text, after) ← readString rest
        return (Char.ofNat (0x10000 + (high - 0xD800) * 0x400 + (low - 0xDC00)) :: text, after)
      | _ => throw .loneSurrogate
    let (text, after) ← readString rest
    return (Char.ofNat high :: text, after)
  | '\\' :: c :: rest =>
    match escapeLetter c with
    | none => .error .badEscape
    | some e => do
      let (text, after) ← readString rest
      return (e :: text, after)
  | c :: rest =>
    if c.toNat < 0x20 then .error .controlCharacter
    else do
      let (text, after) ← readString rest
      return (c :: text, after)

/-- A fixed word that denotes `result`. -/
def readWord (word : List Char) (result : Document) (cs : List Char) :
    Except Fault (Document × List Char) :=
  if word.isPrefixOf cs then .ok (result, cs.drop word.length) else .error .expectedValue

def readNumber (cs : List Char) : Except Fault (Document × List Char) := do
  let (numeral, rest) ← (Numeral.read cs).mapError .numeral
  let number ← numeral.value.mapError .numeral
  return (.number number, rest)

mutual

/-- A value after white space. `depth` more lists and objects may be opened;
`fuel` bounds the steps and never runs out before the text does. -/
def readValue (fuel depth : Nat) (cs : List Char) : Except Fault (Document × List Char) :=
  match fuel with
  | 0 => .error .endOfText
  | fuel + 1 =>
    match skipSpace cs with
    | [] => .error .endOfText
    | '"' :: rest => do
      let (text, rest) ← readString rest
      return (.string (String.ofList text), rest)
    | '[' :: rest =>
      match depth with
      | 0 => .error .tooDeep
      | depth + 1 =>
        match skipSpace rest with
        | ']' :: rest => .ok (.array [], rest)
        | rest => do
          let (items, rest) ← readItems fuel depth rest
          return (.array items, rest)
    | c :: rest =>
      if c.toNat = 0x7B then
        match depth with
        | 0 => .error .tooDeep
        | depth + 1 =>
          match skipSpace rest with
          | [] => .error .endOfText
          | c :: after =>
            if c.toNat = 0x7D then .ok (.object [], after)
            else do
              let (members, rest) ← readMembers fuel depth (c :: after)
              return (.object members, rest)
      else if c = 'n' then readWord "null".toList .null (c :: rest)
      else if c = 't' then readWord "true".toList (.bool true) (c :: rest)
      else if c = 'f' then readWord "false".toList (.bool false) (c :: rest)
      else if c = '-' ∨ c.isDigit then readNumber (c :: rest)
      else .error .expectedValue

/-- The items of a list, at least one, up to its closing bracket. -/
def readItems (fuel depth : Nat) (cs : List Char) :
    Except Fault (List Document × List Char) :=
  match fuel with
  | 0 => .error .endOfText
  | fuel + 1 => do
    let (item, rest) ← readValue fuel depth cs
    match skipSpace rest with
    | ']' :: rest => return ([item], rest)
    | ',' :: rest =>
      let (items, rest) ← readItems fuel depth rest
      return (item :: items, rest)
    | [] => throw .endOfText
    | _ => throw .expectedComma

/-- The members of an object, at least one, up to its closing bracket. -/
def readMembers (fuel depth : Nat) (cs : List Char) :
    Except Fault (List (String × Document) × List Char) :=
  match fuel with
  | 0 => .error .endOfText
  | fuel + 1 => do
    match skipSpace cs with
    | '"' :: rest =>
      let (key, rest) ← readString rest
      match skipSpace rest with
      | ':' :: rest =>
        let (value, rest) ← readValue fuel depth rest
        let member := (String.ofList key, value)
        match skipSpace rest with
        | ',' :: rest =>
          let (members, rest) ← readMembers fuel depth rest
          return (member :: members, rest)
        | c :: rest => if c.toNat = 0x7D then return ([member], rest) else throw .expectedComma
        | [] => throw .endOfText
      | [] => throw .endOfText
      | _ => throw .expectedColon
    | [] => throw .endOfText
    | _ => throw .expectedKey

end

/-- The document that a JSON text denotes, with repeated keys left in place. -/
def read (text : String) : Except Fault Document := do
  let cs := text.toList
  let (value, rest) ← readValue (2 * cs.length + 2) depthLimit cs
  if (skipSpace rest).isEmpty then return value else throw .textAfterValue

end RecordDefinitions.Json
