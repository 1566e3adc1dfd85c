import RecordDefinitions.Naming.Unique
import RecordDefinitions.View.Basic

/-!
# Names in generated code

The names of the generated types, and texts inside quotes.
-/

namespace RecordDefinitions.Generation

/-- The generated name of every definition, by its full name. -/
abbrev TypeNames := List (String × String)

/-- Give each definition the name of its class. A reserved word gets `Type` at its
end, and a name that is taken gets a number; `used` are the names so far. -/
def nameTypes (isReserved : String → Bool) (used : List String) :
    List DefinitionView → TypeNames
  | [] => []
  | d :: ds =>
    let base := if isReserved d.className then d.className ++ "Type" else d.className
    let name := Naming.uniqueName used base
    (d.name, name) :: nameTypes isReserved (name :: used) ds

/-- The character of a text inside double quotes. -/
def escapedChar (c : Char) : List Char :=
  if c == '\\' then ['\\', '\\'] else if c == '"' then ['\\', '"'] else [c]

/-- A text between double quotes. -/
def quoted (text : String) : String :=
  "\"" ++ String.ofList (text.toList.flatMap escapedChar) ++ "\""

/-- What stands in front of every generated file. -/
def banner (kind : String) : String :=
  "// Generated by dto-forge (" ++ kind ++ " codegen).\n"
    ++ "// WARNING: This file is generated. Do not edit manually.\n"

/-- What stands in a file without definitions. -/
def emptyNote : String := "// No definitions found.\n"

end RecordDefinitions.Generation
