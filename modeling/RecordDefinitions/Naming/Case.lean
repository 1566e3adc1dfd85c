import RecordDefinitions.Naming.Tokens

/-!
# Casing

The words of a name put together again in one of three casings, and the name
of a type for an arbitrary key.
-/

namespace RecordDefinitions.Naming

/-- A word with a capital letter in front. -/
def capitalized : List Char → List Char
  | [] => []
  | c :: cs => c.toUpper :: cs

/-- Every word capitalized: `user_name` gives `UserName`. -/
def pascalChars (name : List Char) : List Char := (tokens name).flatMap capitalized

/-- Every word but the first capitalized: `user_name` gives `userName`. -/
def camelChars (name : List Char) : List Char :=
  match tokens name with
  | [] => []
  | w :: ws => w ++ ws.flatMap capitalized

/-- Words separated by underscores: `userName` gives `user_name`. -/
def snakeChars (name : List Char) : List Char := ['_'].intercalate (tokens name)

def pascal (name : String) : String := String.ofList (pascalChars name.toList)

def camel (name : String) : String := String.ofList (camelChars name.toList)

def snake (name : String) : String := String.ofList (snakeChars name.toList)

/-- Letters, digits and underscores after a capital letter. -/
def isTypeName (name : List Char) : Bool :=
  name.head?.any Char.isUpper && name.all fun c => c == '_' || c.isAlphanum

/-- A type name for any key. A key that reads as a type name is kept. Every
other key is put in Pascal case, gives way to `fallback` when no word is left,
and gets `Type` in front when it would start with a digit. -/
def typeName (key fallback : String) : String :=
  if isTypeName key.toList then key
  else
    let name := pascalChars key.toList
    let name := if name.isEmpty then fallback.toList else name
    if name.head?.any Char.isDigit then "Type" ++ String.ofList name else String.ofList name

end RecordDefinitions.Naming
