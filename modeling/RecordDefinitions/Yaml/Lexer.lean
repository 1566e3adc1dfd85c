import RecordDefinitions.Yaml.ScalarText
import RecordDefinitions.Yaml.Token

/-!
# From YAML text to tokens

Tokens are found from left to right. Two things depend on more than the next
characters. Indentation opens and closes blocks: `indent` is the column of the
innermost open block and `outer` those around it. A key on one line is known as
such only when its colon comes: the place where one may have started is kept for
every level of flow style, and the key token is put there afterwards.
-/

namespace RecordDefinitions.Yaml

/-- A place where a key may have started. -/
structure KeyStart where
  /-- Whether a colon has to follow because the key stands at the block's column. -/
  required : Bool
  /-- The number of tokens before the place. -/
  token : Nat
  /-- The number of octets before the place. -/
  offset : Nat
  line : Nat
  column : Nat

structure Lexer where
  cursor : Cursor
  tokens : Array Token
  indent : Int
  outer : List Int
  /-- Whether a key may start at the cursor. -/
  keyAllowed : Bool
  /-- The place where a key may have started, at the innermost level. -/
  keyStart : Option KeyStart
  /-- The same for the levels of flow style around it. -/
  outerKeys : List (Option KeyStart)

abbrev Lex := StateT Lexer (Except Fault)

namespace Lexer

/-- The lexer before the first character. -/
def start (text : List Char) : Lexer :=
  ⟨Cursor.start text, #[], -1, [], true, none, []⟩

/-- Whether a list or object in flow style is open. -/
def inFlow (l : Lexer) : Bool := !l.outerKeys.isEmpty

def fail {α : Type} (problem : String) : Lex α := do (← get).cursor.fail problem

def emit (t : Token) : Lex Unit := modify fun l => { l with tokens := l.tokens.push t }

def setCursor (c : Cursor) : Lex Unit := modify fun l => { l with cursor := c }

def allowKey (allowed : Bool) : Lex Unit := modify fun l => { l with keyAllowed := allowed }

/-- Emit a token that is `n` characters long. -/
def emitMark (t : Token) (n : Nat) : Lex Unit := do
  emit t
  setCursor ((← get).cursor.skip n)

/-! ## Keys -/

/-- Forget the place where a key may have started. -/
def dropKey : Lex Unit := do
  if (← get).keyStart.any (·.required) then fail "expected a colon"
  modify fun l => { l with keyStart := none }

/-- Remember the cursor as a place where a key may start. -/
def saveKey : Lex Unit := do
  let l ← get
  if l.keyAllowed then
    let required := !l.inFlow && l.indent == l.cursor.column
    dropKey
    modify fun l => { l with
      keyStart := some
        ⟨required, l.tokens.size, l.cursor.offset, l.cursor.line, l.cursor.column⟩ }

/-- Whether a key that started at a place is out of reach: it has to end on its
line and within 1024 octets. -/
def isStale (c : Cursor) (k : KeyStart) : Bool := k.line < c.line || k.offset + 1024 < c.offset

/-- Forget the places that are out of reach. -/
def dropStaleKeys : Lex Unit := do
  let l ← get
  let stale : Option KeyStart → Bool := fun k => k.any (isStale l.cursor)
  if (l.keyStart :: l.outerKeys).any fun k => stale k && k.any (·.required) then
    fail "expected a colon"
  let keep : Option KeyStart → Option KeyStart := fun k => if stale k then none else k
  set { l with keyStart := keep l.keyStart, outerKeys := l.outerKeys.map keep }

/-! ## Blocks -/

/-- Open a block at a column, unless one is open there. `place` is where its
token goes; none is the end. -/
def openBlock (column : Nat) (place : Option Nat) (t : Token) : Lex Unit :=
  modify fun l =>
    if l.inFlow || (column : Int) ≤ l.indent then l
    else
      { l with
        outer := l.indent :: l.outer
        indent := column
        tokens := l.tokens.insertIdxIfInBounds (place.getD l.tokens.size) t }

/-- Close the blocks that start to the right of a column. -/
def closeBlocks (column : Int) : Lex Unit :=
  modify fun l =>
    if l.inFlow then l
    else
      let closing := (l.indent :: l.outer).takeWhile (column < ·)
      let open_ := (l.indent :: l.outer).dropWhile (column < ·)
      { l with
        indent := open_.headD (-1)
        outer := open_.tail
        tokens := closing.foldl (fun ts _ => ts.push .blockEnd) l.tokens }

/-- Close every block and forget all keys, as before a document marker. -/
def closeAll : Lex Unit := do
  closeBlocks (-1)
  dropKey
  allowKey false

/-! ## Blanks between tokens -/

/-- Pass blanks, comments and breaks. Tabs count as blanks only where no block
could start. -/
def skipBlanks (fuel : Nat) : Lex Unit :=
  match fuel with
  | 0 => pure ()
  | fuel + 1 => do
    let l ← get
    let c := l.cursor
    let c := if c.column == 0 && c.head? == some byteOrderMark then c.skip 1 else c
    let tabs := l.inFlow || !l.keyAllowed
    let c := c.skipWhile fun b => b == ' ' || (tabs && b == '\t')
    let c := if c.head? == some '#' then c.skipWhile (!isBreak ·) else c
    if c.atBreak then
      setCursor c.takeBreak.2
      if !l.inFlow then allowKey true
      skipBlanks fuel
    else setCursor c

/-! ## Directives -/

/-- A part of a version number. -/
def takeVersionPart (c : Cursor) : Except Fault (Nat × Cursor) :=
  let (ds, after) := c.takeWhile Char.isDigit
  if ds.isEmpty then c.fail "expected a version number"
  else if 9 < ds.length then c.fail "the version number is too long"
  else .ok (Decimal.value ds, after)

/-- A tag handle: an exclamation mark, word characters, and an exclamation mark
that may be missing. -/
def takeHandle (c : Cursor) : Except Fault (List Char × Cursor) :=
  if c.head? == some '!' then
    let (word, after) := (c.skip 1).takeWhile isWordChar
    if after.head? == some '!' then .ok ('!' :: word ++ ['!'], after.skip 1)
    else .ok ('!' :: word, after)
  else c.fail "expected an exclamation mark"

/-- The characters of a tag; `verbatim` ones stand between angle brackets. -/
def isTagChar (verbatim : Bool) (c : Char) : Bool :=
  isWordChar c || ";/?:@&=+$.!~*'()%".toList.contains c
    || (verbatim && (c == ',' || c == '[' || c == ']'))

/-- The number of octets that follow the first one of a character. -/
def furtherCount? (octet : UInt8) : Option Nat :=
  if octet < 0x80 then some 0
  else if octet < 0xC0 then none
  else if octet < 0xE0 then some 1
  else if octet < 0xF0 then some 2
  else if octet < 0xF8 then some 3
  else none

/-- An octet written as a percent sign and two hexadecimal digits. -/
def takeOctet (c : Cursor) : Except Fault (UInt8 × Cursor) :=
  match c.rest with
  | '%' :: a :: b :: _ =>
    match Decimal.ofBase? 16 [a, b] with
    | some n => .ok (n.toUInt8, c.skip 3)
    | none => c.fail "expected an escaped octet"
  | _ => c.fail "expected an escaped octet"

/-- The octets of a character after its first one. -/
def takeFurtherOctets (count : Nat) (c : Cursor) : Except Fault (List UInt8 × Cursor) :=
  match count with
  | 0 => .ok ([], c)
  | count + 1 => do
    let (octet, after) ← takeOctet c
    if octet < 0x80 ∨ 0xC0 ≤ octet then c.fail "expected a further octet"
    let (octets, after) ← takeFurtherOctets count after
    return (octet :: octets, after)

/-- The octets of a character, all of them escaped. Only their shape counts: they
may be more than the character needs, or spell none. -/
def takeTagEscape (c : Cursor) : Except Fault (List UInt8 × Cursor) := do
  let (octet, after) ← takeOctet c
  match furtherCount? octet with
  | none => c.fail "expected the first octet of a character"
  | some count =>
    let (octets, after) ← takeFurtherOctets count after
    return (octet :: octets, after)

/-- The characters of a tag as octets, with escapes replaced. -/
def takeTagOctets (verbatim : Bool) (fuel : Nat) (c : Cursor) :
    Except Fault (List UInt8 × Cursor) :=
  match fuel with
  | 0 => .ok ([], c)
  | fuel + 1 =>
    match c.head? with
    | none => .ok ([], c)
    | some ch =>
      if !isTagChar verbatim ch then .ok ([], c)
      else do
        let (octets, after) ←
          if ch == '%' then takeTagEscape c else .ok (String.utf8EncodeChar ch, c.skip 1)
        let (more, after) ← takeTagOctets verbatim fuel after
        return (octets ++ more, after)

/-- A part of a tag, which has to hold a character. A zero octet ends it, and what
is written after that is dropped. -/
def takeTagPart (verbatim : Bool) (c : Cursor) : Except Fault (Tag × Cursor) := do
  let (octets, after) ← takeTagOctets verbatim (c.rest.length + 1) c
  if octets.isEmpty then after.fail "expected a tag"
  else return (Tag.beforeZero ⟨octets⟩, after)

/-- The directive `%YAML` with a version. -/
def takeVersion (c : Cursor) : Except Fault (Token × Cursor) := do
  let c := c.skipWhile isBlank
  let (major, c) ← takeVersionPart c
  if c.head? == some '.' then
    let (minor, c) ← takeVersionPart (c.skip 1)
    return (.version major minor, c)
  else c.fail "expected a digit or a point"

/-- The directive `%TAG` with a handle and what it stands for. -/
def takeTagHandle (c : Cursor) : Except Fault (Token × Cursor) := do
  let c := c.skipWhile isBlank
  let (handle, c) ← takeHandle c
  if handle ≠ ['!'] ∧ handle.getLast? ≠ some '!' ∨ handle.length = 0 then
    c.fail "expected an exclamation mark"
  else if !c.atBlank then c.fail "expected a blank"
  else
    let c := c.skipWhile isBlank
    let (expansion, c) ← takeTagPart true c
    if !endsWord c.head? then c.fail "expected a blank"
    else return (.tagHandle (String.ofList handle) expansion, c)

/-- A directive; the cursor stands on its percent sign. -/
def takeDirective (c : Cursor) : Except Fault (Token × Cursor) := do
  let (name, c) := (c.skip 1).takeWhile isWordChar
  if name.isEmpty || !endsWord c.head? then c.fail "expected the name of a directive"
  let (t, c) ←
    if name = "YAML".toList then takeVersion c
    else if name = "TAG".toList then takeTagHandle c
    else c.fail "unknown directive"
  return (t, ← c.skipToLineEnd)

/-! ## Names and tags of nodes -/

/-- The name after `&` or `*`. -/
def takeName (c : Cursor) : Except Fault (String × Cursor) :=
  let (name, after) := (c.skip 1).takeWhile isWordChar
  let closes : Option Char → Bool := fun ch =>
    endsWord ch || ch.any fun d => "?:,]%@`".toList.contains d || d.toNat == 0x7D
  if name.isEmpty || !closes after.head? then after.fail "expected a name"
  else .ok (String.ofList name, after)

/-- A tag; the cursor stands on its exclamation mark. Without a handle of its own
it has the handle `!`, and none if nothing follows that. -/
def takeTag (flow : Bool) (c : Cursor) : Except Fault (Token × Cursor) := do
  let (handle, suffix, c) ←
    if c.peek? 1 == some '<' then
      let (suffix, c) ← takeTagPart true (c.skip 2)
      if c.head? == some '>' then .ok ([], suffix, c.skip 1)
      else c.fail "expected a closing angle bracket"
    else
      let (handle, c) ← takeHandle c
      if 1 < handle.length ∧ handle.getLast? = some '!' then
        let (suffix, c) ← takeTagPart false c
        .ok (handle, suffix, c)
      else
        let (octets, c) ← takeTagOctets false (c.rest.length + 1) c
        let suffix := (Tag.ofText (String.ofList (handle.drop 1))).join (Tag.beforeZero ⟨octets⟩)
        if suffix.octets.isEmpty then .ok ([], .mark, c) else .ok (['!'], suffix, c)
  if endsWord c.head? || (flow && c.head? == some ',') then
    return (.tag (String.ofList handle) suffix, c)
  else c.fail "expected a blank"

/-! ## One token -/

/-- The start of a list or object in flow style. -/
def openFlow (t : Token) : Lex Unit := do
  saveKey
  modify fun l => { l with outerKeys := l.keyStart :: l.outerKeys, keyStart := none }
  allowKey true
  emitMark t 1

/-- The end of a list or object in flow style. -/
def closeFlow (t : Token) : Lex Unit := do
  dropKey
  modify fun l =>
    match l.outerKeys with
    | [] => l
    | k :: ks => { l with keyStart := k, outerKeys := ks }
  allowKey false
  emitMark t 1

/-- The hyphen before an item. -/
def blockEntry : Lex Unit := do
  let l ← get
  if !l.inFlow then
    if !l.keyAllowed then fail "no item may start here"
    openBlock l.cursor.column none .blockSequenceStart
  dropKey
  allowKey true
  emitMark .blockEntry 1

/-- The question mark before a key. -/
def explicitKey : Lex Unit := do
  let l ← get
  if !l.inFlow then
    if !l.keyAllowed then fail "no key may start here"
    openBlock l.cursor.column none .blockMappingStart
  dropKey
  allowKey !l.inFlow
  emitMark .key 1

/-- The colon before a value. It makes a key of what started at the remembered
place. -/
def valueMark : Lex Unit := do
  let l ← get
  match l.keyStart with
  | some k =>
    set { l with tokens := l.tokens.insertIdxIfInBounds k.token .key, keyStart := none }
    openBlock k.column (some k.token) .blockMappingStart
    allowKey false
  | none =>
    if !l.inFlow then
      if !l.keyAllowed then fail "no value may start here"
      openBlock l.cursor.column none .blockMappingStart
    allowKey !l.inFlow
  emitMark .value 1

/-- A token that may be a key, read by `take`. -/
def keyCandidate (take : Cursor → Except Fault (Token × Cursor)) : Lex Unit := do
  saveKey
  allowKey false
  let (t, c) ← take (← get).cursor
  emit t
  setCursor c

def quotedScalar (quote : Char) (style : ScalarStyle) : Lex Unit :=
  keyCandidate fun c => do
    let (text, c) ← takeQuoted quote c
    return (.scalar style (String.ofList text), c)

def plainScalar : Lex Unit := do
  saveKey
  allowKey false
  let l ← get
  let (text, broken, c) ← takePlain l.inFlow (l.indent + 1).toNat l.cursor
  emit (.scalar .plain (String.ofList text))
  setCursor c
  if broken then allowKey true

def blockScalar (folded : Bool) : Lex Unit := do
  dropKey
  allowKey true
  let l ← get
  let (text, c) ← takeBlock folded l.indent l.cursor
  emit (.scalar (if folded then .folded else .literal) (String.ofList text))
  setCursor c

/-- The characters that no plain scalar starts with, whatever follows. -/
def neverPlain : List Char := ",[]#&*!|>'\"%@`".toList ++ [Char.ofNat 0x7B, Char.ofNat 0x7D]

/-- Whether a plain scalar starts with `c` before `next`. -/
def startsPlain (inFlow : Bool) (c : Char) (next : Option Char) : Bool :=
  if c == '-' then !next.any isBlank
  else if c == '?' || c == ':' then !inFlow && !endsWord next
  else !(isBlank c || isBreak c || neverPlain.contains c)

/-- The token that starts at the cursor, which stands on `c`. -/
def token (c : Char) : Lex Unit := do
  let l ← get
  let alone := endsWord (l.cursor.peek? 1)
  if l.cursor.column == 0 && c == '%' then
    closeAll
    let (t, c) ← takeDirective (← get).cursor
    emit t
    setCursor c
  else if l.cursor.atMarker '-' then
    closeAll
    emitMark .documentStart 3
  else if l.cursor.atMarker '.' then
    closeAll
    emitMark .documentEnd 3
  else if c == '[' then openFlow .flowSequenceStart
  else if c.toNat == 0x7B then openFlow .flowMappingStart
  else if c == ']' then closeFlow .flowSequenceEnd
  else if c.toNat == 0x7D then closeFlow .flowMappingEnd
  else if c == ',' then
    dropKey
    allowKey true
    emitMark .flowEntry 1
  else if c == '-' && alone then blockEntry
  else if c == '?' && (l.inFlow || alone) then explicitKey
  else if c == ':' && (l.inFlow || alone) then valueMark
  else if c == '*' then
    keyCandidate fun c => (takeName c).map fun (name, c) => (.alias name, c)
  else if c == '&' then
    keyCandidate fun c => (takeName c).map fun (name, c) => (.anchor name, c)
  else if c == '!' then keyCandidate (takeTag l.inFlow)
  else if c == '|' && !l.inFlow then blockScalar false
  else if c == '>' && !l.inFlow then blockScalar true
  else if c == '\'' then quotedScalar '\'' .singleQuoted
  else if c == '"' then quotedScalar '"' .doubleQuoted
  else if startsPlain l.inFlow c (l.cursor.peek? 1) then plainScalar
  else fail "no token starts with this character"

/-- All tokens from the cursor on. -/
def run (fuel : Nat) : Lex Unit :=
  match fuel with
  | 0 => pure ()
  | fuel + 1 => do
    skipBlanks ((← get).cursor.rest.length + 1)
    dropStaleKeys
    closeBlocks (← get).cursor.column
    match (← get).cursor.head? with
    | some c =>
      token c
      run fuel
    | none =>
      closeBlocks (-1)
      dropKey

end Lexer

/-- The tokens of a text. -/
def tokens (text : String) : Except Fault (List Token) := do
  let cs := text.toList
  if !cs.all isAllowed then (Cursor.start cs).fail "control characters are not allowed"
  let ((), l) ← (Lexer.run (cs.length + 1)).run (Lexer.start cs)
  return l.tokens.toList

end RecordDefinitions.Yaml
