import RecordDefinitions.Decimal.Digits
import RecordDefinitions.Decimal.Nearest
import RecordDefinitions.Document.Basic
import RecordDefinitions.Yaml.Cursor
import RecordDefinitions.Yaml.Tag

/-!
# YAML scalars

What the text of a scalar denotes. A quoted scalar is a string. A plain one is
null, a truth value, a whole number in base ten, sixteen, eight or two, or a
fractional number if it reads as one, and a string otherwise. Numbers that are
not finite have no place in a document and become null.
-/

namespace RecordDefinitions.Yaml

/-- How a scalar is written. -/
inductive ScalarStyle where
  | plain
  | singleQuoted
  | doubleQuoted
  | literal
  | folded
  deriving DecidableEq

/-- A scalar with its tag, if it has one. -/
structure Scalar where
  tag : Option Tag
  style : ScalarStyle
  text : String

/-- The empty plain scalar, which stands where nothing is written. -/
def Scalar.missing : Scalar := ⟨none, .plain, ""⟩

/-- A text as it is read when its type is open. -/
inductive ScalarValue where
  | null
  | bool (value : Bool)
  | integer (value : Int)
  | real (bits : UInt64)
  /-- Infinite or no number. -/
  | notFinite
  | string

def isNullWord (text : String) : Bool :=
  text == "null" || text == "Null" || text == "NULL" || text == "~"

def boolWord? (text : String) : Option Bool :=
  if text == "true" || text == "True" || text == "TRUE" then some true
  else if text == "false" || text == "False" || text == "FALSE" then some false
  else none

/-- A text without one leading sign out of `signs`. -/
def withoutSign (signs : List Char) : List Char → List Char
  | c :: cs => if signs.contains c then cs else c :: cs
  | [] => []

/-- Several digits with a zero in front are no number. -/
def isPaddedDigits (text : List Char) : Bool :=
  match withoutSign ['+', '-'] text with
  | '0' :: d :: ds => (d :: ds).all Char.isDigit
  | _ => false

/-- A whole number without sign, in the base that its first characters say. -/
def natural? (text : List Char) : Option Nat :=
  match text with
  | '0' :: 'x' :: ds => Decimal.ofBase? 16 ds
  | '0' :: 'o' :: ds => Decimal.ofBase? 8 ds
  | '0' :: 'b' :: ds => Decimal.ofBase? 2 ds
  | ds => if isPaddedDigits ds then none else Decimal.ofBase? 10 ds

/-- A whole number of at most 128 bits; a sign may stand in front. -/
def integer? (text : List Char) : Option Int :=
  let (negative, magnitude) :=
    match text with
    | '-' :: ds => (true, ds)
    | '+' :: ds => (false, ds)
    | ds => (false, ds)
  match natural? magnitude with
  | none => none
  | some n =>
    if negative then if n ≤ Nat.pow 2 127 then some (-n) else none
    else if n < Nat.pow 2 128 then some n else none

/-- An exponent: a mark, a sign that may be missing, and digits. -/
def exponent? : List Char → Option Int
  | [] => some 0
  | e :: rest =>
    if e == 'e' || e == 'E' then
      let (negative, ds) :=
        match rest with
        | '-' :: ds => (true, ds)
        | '+' :: ds => (false, ds)
        | ds => (false, ds)
      if ds.isEmpty || !ds.all Char.isDigit then none
      else some (if negative then -Decimal.value ds else Decimal.value ds)
    else none

/-- A fractional number without sign: digits with a point among, before or
behind them, and an exponent. None stands for a number beyond the finite ones. -/
def magnitude? (text : List Char) : Option (Option UInt64) :=
  let whole := text.takeWhile Char.isDigit
  let rest := text.dropWhile Char.isDigit
  let (fraction, rest) :=
    match rest with
    | '.' :: rest => (rest.takeWhile Char.isDigit, rest.dropWhile Char.isDigit)
    | rest => ([], rest)
  if whole.isEmpty && fraction.isEmpty then none
  else
    (exponent? rest).map fun exponent =>
      Decimal.nearest (Decimal.value (whole ++ fraction)) (exponent - fraction.length)

/-- A fractional number with a sign that may be missing. A number too large to
be finite is none. -/
def real? (text : List Char) : Option ScalarValue :=
  let s := String.ofList text
  let unsigned := withoutSign ['+'] text
  let u := String.ofList unsigned
  if u == ".inf" || u == ".Inf" || u == ".INF" then some .notFinite
  else if s == "-.inf" || s == "-.Inf" || s == "-.INF" then some .notFinite
  else if s == ".nan" || s == ".NaN" || s == ".NAN" then some .notFinite
  else
    match unsigned with
    | '-' :: magnitude =>
      if text.head? == some '+' then none
      else
        match magnitude? magnitude with
        | some (some bits) => some (.real (bits ||| ((1 : UInt64) <<< 63)))
        | _ => none
    | magnitude =>
      match magnitude? magnitude with
      | some (some bits) => some (.real bits)
      | _ => none

/-- What a plain text without tag denotes when its type is open. -/
def plainValue (text : String) : ScalarValue :=
  if text.isEmpty || isNullWord text then .null
  else
    match boolWord? text with
    | some b => .bool b
    | none =>
      match integer? text.toList with
      | some i => .integer i
      | none =>
        if isPaddedDigits text.toList then .string
        else (real? text.toList).getD .string

/-- The document of a whole number, which has to fit into 64 bits. -/
def integerDocument? (i : Int) : Option Document :=
  if -Int.pow 2 63 ≤ i ∧ i < Int.pow 2 64 then some (.number (.integer i)) else none

/-- The document of a value; `text` is its text. -/
def ScalarValue.document? (text : String) : ScalarValue → Option Document
  | .null => some .null
  | .bool b => some (.bool b)
  | .integer i => integerDocument? i
  | .real bits => some (.number (.real bits))
  | .notFinite => some .null
  | .string => some (.string text)

/-- What a scalar denotes when its type is open; none if it does not fit its tag.
A built-in tag says the type. The document's own tags have no meaning, so nothing
fits them. Other tags leave a string, save that a plain scalar is read as if it
had no tag where an exclamation mark starts the tag. -/
def Scalar.value? (s : Scalar) : Option ScalarValue :=
  match s.tag with
  | none => some (if s.style = .plain then plainValue s.text else .string)
  | some tag =>
    if tag.isOwn then none
    else if tag = .core "bool" then (boolWord? s.text).map .bool
    else if tag = .core "int" then (integer? s.text.toList).map .integer
    else if tag = .core "float" then real? s.text.toList
    else if tag = .core "null" then if isNullWord s.text then some .null else none
    else some (if tag.isMarked && s.style = .plain then plainValue s.text else .string)

/-- The document of a scalar whose type is open. -/
def Scalar.document? (s : Scalar) : Option Document := s.value?.bind (·.document? s.text)

end RecordDefinitions.Yaml
