import RecordDefinitions.Yaml.Scalar

/-!
# Scalars in a YAML text

Reading one scalar at the cursor. Lines are folded: a single break between two
words counts as a space, and of several breaks the first one is dropped. In a
literal block every break counts.
-/

namespace RecordDefinitions.Yaml

/-! ## Folding -/

/-- What was passed between two words: blanks on one line, or breaks. -/
structure Gap where
  blanks : List Char
  first : List Char
  others : List Char
  broken : Bool

/-- Nothing between two words. -/
def Gap.none : Gap := ⟨[], [], [], false⟩

/-- A gap that starts with a break that does not count. -/
def Gap.escapedBreak : Gap := ⟨[], [], [], true⟩

/-- The text that a gap stands for. -/
def Gap.text (g : Gap) : List Char :=
  if g.broken then
    if g.first.head? == some '\n' then
      if g.others.isEmpty then [' '] else g.others
    else g.first ++ g.others
  else g.blanks

/-- Pass blanks and breaks. `indent` is the first column where a tab may stand
after a break. -/
def takeGap (indent : Nat) (fuel : Nat) (g : Gap) (c : Cursor) : Except Fault (Gap × Cursor) :=
  match fuel with
  | 0 => .ok (g, c)
  | fuel + 1 =>
    match c.head? with
    | some b =>
      if isBlank b then
        if g.broken then
          if b == '\t' && c.column < indent then c.fail "a tab instead of indentation"
          else takeGap indent fuel g (c.skip 1)
        else takeGap indent fuel { g with blanks := g.blanks ++ [b] } (c.skip 1)
      else if isBreak b then
        let (text, c) := c.takeBreak
        if g.broken then takeGap indent fuel { g with others := g.others ++ text } c
        else takeGap indent fuel { blanks := [], first := text, others := g.others, broken := true } c
      else .ok (g, c)
    | none => .ok (g, c)

/-! ## Quoted scalars -/

/-- The character of an escape that is one letter long. -/
def escapeLetter? (c : Char) : Option Char :=
  match c with
  | '0' => some (Char.ofNat 0x00)
  | 'a' => some (Char.ofNat 0x07)
  | 'b' => some (Char.ofNat 0x08)
  | 't' | '\t' => some '\t'
  | 'n' => some '\n'
  | 'v' => some (Char.ofNat 0x0B)
  | 'f' => some (Char.ofNat 0x0C)
  | 'r' => some '\r'
  | 'e' => some (Char.ofNat 0x1B)
  | ' ' => some ' '
  | '"' => some '"'
  | '/' => some '/'
  | '\\' => some '\\'
  | 'N' => some (Char.ofNat 0x85)
  | '_' => some (Char.ofNat 0xA0)
  | 'L' => some (Char.ofNat 0x2028)
  | 'P' => some (Char.ofNat 0x2029)
  | _ => none

/-- The number of hexadecimal digits after an escape letter. -/
def escapeWidth? (c : Char) : Option Nat :=
  match c with
  | 'x' => some 2
  | 'u' => some 4
  | 'U' => some 8
  | _ => none

/-- The escape at the cursor, which stands on a backslash. -/
def takeEscape (c : Cursor) : Except Fault (Char × Cursor) :=
  match c.peek? 1 with
  | none => c.fail "the text ends inside an escape"
  | some letter =>
    match escapeLetter? letter with
    | some e => .ok (e, c.skip 2)
    | none =>
      match escapeWidth? letter with
      | none => c.fail "unknown escape"
      | some width =>
        let ds := (c.rest.drop 2).take width
        match (if ds.length = width then Decimal.ofBase? 16 ds else none) with
        | none => c.fail "expected hexadecimal digits"
        | some n =>
          if (0xD800 ≤ n ∧ n ≤ 0xDFFF) ∨ 0x10FFFF < n then c.fail "no character has this number"
          else .ok (Char.ofNat n, c.skip (2 + width))

/-- The characters up to a blank, a break or the closing quote, and whether an
escaped break ended them. -/
def takeQuotedRun (quote : Char) (fuel : Nat) (c : Cursor) :
    Except Fault (List Char × Bool × Cursor) :=
  match fuel with
  | 0 => .ok ([], false, c)
  | fuel + 1 =>
    match c.head? with
    | none => .ok ([], false, c)
    | some ch =>
      if isBlank ch || isBreak ch then .ok ([], false, c)
      else if ch == quote then
        if quote == '\'' && c.peek? 1 == some '\'' then do
          let (text, escaped, c) ← takeQuotedRun quote fuel (c.skip 2)
          return ('\'' :: text, escaped, c)
        else .ok ([], false, c)
      else if quote == '"' && ch == '\\' then
        if (c.peek? 1).any isBreak then .ok ([], true, (c.skip 1).takeBreak.2)
        else do
          let (e, c) ← takeEscape c
          let (text, escaped, c) ← takeQuotedRun quote fuel c
          return (e :: text, escaped, c)
      else do
        let (text, escaped, c) ← takeQuotedRun quote fuel (c.skip 1)
        return (ch :: text, escaped, c)

/-- The runs of a quoted scalar up to its closing quote. -/
def takeQuotedRuns (quote : Char) (fuel : Nat) (c : Cursor) : Except Fault (List Char × Cursor) :=
  match fuel with
  | 0 => c.fail "a quoted scalar is not closed"
  | fuel + 1 => do
    if c.atAnyMarker then c.fail "a document marker inside a quoted scalar"
    else if c.rest.isEmpty then c.fail "a quoted scalar is not closed"
    else
      let (run, escaped, c) ← takeQuotedRun quote (c.rest.length + 1) c
      if c.head? == some quote then return (run, c.skip 1)
      let gap := if escaped then Gap.escapedBreak else Gap.none
      let (gap, c) ← takeGap 0 (c.rest.length + 1) gap c
      let (text, c) ← takeQuotedRuns quote fuel c
      return (run ++ gap.text ++ text, c)

/-- A quoted scalar; the cursor stands on its quote. -/
def takeQuoted (quote : Char) (c : Cursor) : Except Fault (List Char × Cursor) :=
  takeQuotedRuns quote (c.rest.length + 1) (c.skip 1)

/-! ## Plain scalars -/

/-- The indicators of lists and objects in flow style. -/
def isFlowIndicator (c : Char) : Bool :=
  c == ',' || c == '[' || c == ']' || c.toNat == 0x7B || c.toNat == 0x7D

/-- The characters of a plain scalar up to a blank, a break or an indicator. -/
def takePlainRun (inFlow : Bool) (fuel : Nat) (c : Cursor) : Except Fault (List Char × Cursor) :=
  match fuel with
  | 0 => .ok ([], c)
  | fuel + 1 =>
    match c.head? with
    | none => .ok ([], c)
    | some ch =>
      if isBlank ch || isBreak ch then .ok ([], c)
      else if inFlow && ch == ':' && (c.peek? 1).any (fun d => isFlowIndicator d || d == '?') then
        c.fail "a colon before an indicator"
      else if (ch == ':' && endsWord (c.peek? 1)) || (inFlow && isFlowIndicator ch) then
        .ok ([], c)
      else do
        let (text, c) ← takePlainRun inFlow fuel (c.skip 1)
        return (ch :: text, c)

/-- The runs of a plain scalar after a gap, and whether a break came last. -/
def takePlainRuns (inFlow : Bool) (indent : Nat) (gap : Gap) (fuel : Nat) (c : Cursor) :
    Except Fault (List Char × Bool × Cursor) :=
  match fuel with
  | 0 => .ok ([], gap.broken, c)
  | fuel + 1 => do
    if c.atAnyMarker || c.head? == some '#' then return ([], gap.broken, c)
    let (run, c) ← takePlainRun inFlow (c.rest.length + 1) c
    let text := if run.isEmpty then [] else gap.text ++ run
    let gap := if run.isEmpty then gap else Gap.none
    if !(c.atBlank || c.atBreak) then return (text, gap.broken, c)
    let (gap, c) ← takeGap indent (c.rest.length + 1) gap c
    if !inFlow && c.column < indent then return (text, gap.broken, c)
    let (more, broken, c) ← takePlainRuns inFlow indent gap fuel c
    return (text ++ more, broken, c)

/-- A plain scalar; outside flow style its lines start at column `indent` or
later. Also whether a break came last. -/
def takePlain (inFlow : Bool) (indent : Nat) (c : Cursor) :
    Except Fault (List Char × Bool × Cursor) :=
  takePlainRuns inFlow indent Gap.none (c.rest.length + 1) c

/-! ## Block scalars -/

/-- What happens to the breaks at the end of a block. -/
inductive Chomping where
  | strip
  | clip
  | keep
  deriving DecidableEq

def chomping? (c : Char) : Option Chomping :=
  if c == '+' then some .keep else if c == '-' then some .strip else none

/-- The marks of a block after its indicator: chomping and indentation, either
of them first. -/
def takeBlockMarks (c : Cursor) : Except Fault (Chomping × Nat × Cursor) := do
  let digit : Cursor → Except Fault (Nat × Cursor) := fun c =>
    match c.head? with
    | some d =>
      if d == '0' then c.fail "an indentation of zero"
      else if d.isDigit then .ok (Decimal.digitValue d, c.skip 1)
      else .ok (0, c)
    | none => .ok (0, c)
  match c.head?.bind chomping? with
  | some chomping =>
    let (indent, c) ← digit (c.skip 1)
    return (chomping, indent, c)
  | none =>
    let (indent, c) ← digit c
    match (if indent = 0 then none else c.head?.bind chomping?) with
    | some chomping => return (chomping, indent, c.skip 1)
    | none => return (.clip, indent, c)

/-- Pass indentation and empty lines. With `indent = 0` the column is still
open, and the widest line so far is kept in `widest`. -/
def takeEmptyLines (indent widest : Nat) (fuel : Nat) (breaks : List Char) (c : Cursor) :
    Except Fault (List Char × Nat × Cursor) :=
  match fuel with
  | 0 => .ok (breaks, widest, c)
  | fuel + 1 =>
    let spaces := (c.rest.takeWhile (· == ' ')).length
    let c := c.skip (if indent = 0 then spaces else min spaces (indent - c.column))
    let widest := max widest c.column
    if (indent = 0 || c.column < indent) && c.head? == some '\t' then
      c.fail "a tab instead of indentation"
    else if c.atBreak then
      let (text, c) := c.takeBreak
      takeEmptyLines indent widest fuel (breaks ++ text) c
    else .ok (breaks, widest, c)

/-- The lines of a block. `first` is the break after the line before, `others`
are the empty lines after it, and `blankBefore` says whether that line started
with a blank; such lines are not folded. -/
def takeBlockLines (folded : Bool) (indent : Nat) (first others : List Char)
    (blankBefore : Bool) (fuel : Nat) (c : Cursor) :
    Except Fault (List Char × List Char × List Char × Cursor) :=
  match fuel with
  | 0 => .ok ([], first, others, c)
  | fuel + 1 => do
    if c.column ≠ indent || c.rest.isEmpty then return ([], first, others, c)
    let blank := c.atBlank
    let joint :=
      if folded && first.head? == some '\n' && !blankBefore && !blank then
        if others.isEmpty then [' '] else others
      else first ++ others
    let (line, c) := c.takeWhile (!isBreak ·)
    let (next, c) := c.takeBreak
    let (empty, _, c) ← takeEmptyLines indent 0 (c.rest.length + 1) [] c
    let (text, first, others, c) ← takeBlockLines folded indent next empty blank fuel c
    return (joint ++ line ++ text, first, others, c)

/-- A block scalar; the cursor stands on its indicator and `parent` is the
column of the block around it, or minus one. -/
def takeBlock (folded : Bool) (parent : Int) (c : Cursor) : Except Fault (List Char × Cursor) := do
  let (chomping, mark, c) ← takeBlockMarks (c.skip 1)
  let c ← c.skipToLineEnd
  let given := if mark = 0 then 0 else (if 0 ≤ parent then parent.toNat else 0) + mark
  let (empty, widest, c) ← takeEmptyLines given 0 (c.rest.length + 1) [] c
  let indent := if given = 0 then max (max widest (parent + 1).toNat) 1 else given
  let (text, first, others, c) ←
    takeBlockLines folded indent [] empty false (c.rest.length + 1) c
  let tail :=
    match chomping with
    | .strip => []
    | .clip => first
    | .keep => first ++ others
  return (text ++ tail, c)

end RecordDefinitions.Yaml
