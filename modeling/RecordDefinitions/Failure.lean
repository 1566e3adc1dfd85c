import RecordDefinitions.Declaration.Decoding
import RecordDefinitions.Json.Reader
import RecordDefinitions.Source.Format
import RecordDefinitions.Yaml.Cursor

/-!
# Failures

Everything that can go wrong, by its cause. Each failure carries the names of
what it is about; the wording is in `Failure.message`.
-/

namespace RecordDefinitions

/-- Why a text is not what its format asks for. -/
inductive TextFault where
  | json (fault : Json.Fault)
  | yaml (fault : Yaml.Fault)
  | declarations (fault : DecodeFault)

def TextFault.message : TextFault → String
  | .json fault => fault.message
  | .yaml fault => fault.message
  | .declarations fault => fault.message

/-- What is wrong with a source. -/
inductive Malformation where
  | emptyDefinitionName
  | emptyFieldName (owner : String)
  | type (fault : TypeExpr.Fault)
  | fieldType (fault : TypeExpr.Fault) (owner field : String)
  | document (format : Format) (fault : TextFault)
  | declarations (format : Format) (fault : TextFault)
  | unresolvableReference (reference : String)
  /-- References are nested more deeply than any reading of them needs. -/
  | endlessReferences
  | inFile (path : String) (cause : Malformation)

def Malformation.message : Malformation → String
  | .emptyDefinitionName => "definition name must not be empty"
  | .emptyFieldName owner => "definition '" ++ owner ++ "' has a field with an empty name"
  | .type fault => fault.message
  | .fieldType fault owner field =>
    fault.message ++ " in field '" ++ owner ++ "." ++ field ++ "'"
  | .document format fault => "invalid " ++ format.name ++ ": " ++ fault.message
  | .declarations format fault => "invalid definitions " ++ format.name ++ ": " ++ fault.message
  | .unresolvableReference reference => "unresolvable $ref '" ++ reference ++ "'"
  | .endlessReferences => "schemas are nested without end"
  | .inFile path cause => "'" ++ path ++ "': " ++ cause.message

/-- Why a file cannot be read. -/
inductive FileFault where
  | missing
  | isDirectory
  /-- A file stands where the path goes on. -/
  | notDirectory
  | notText
  | other (reason : String)

def FileFault.message : FileFault → String
  | .missing => "No such file or directory (os error 2)"
  | .isDirectory => "Is a directory (os error 21)"
  | .notDirectory => "Not a directory (os error 20)"
  | .notText => "stream did not contain valid UTF-8"
  | .other reason => reason

inductive Failure where
  | duplicateDefinition (name : String)
  /-- `referencedFrom` says where the name stands, if it stands in a definition. -/
  | unknownDefinition (name : String) (referencedFrom : Option String)
  /-- Each name's parent is the next one, and the last name is the first again. -/
  | cyclicInheritance (chain : List String)
  | incompatibleOverride (definition field ancestor inherited overriding : String)
  /-- Each definition has a field of the next one, and the last is the first again. -/
  | cyclicShape (path : List String)
  | unsupportedRoot (found : String)
  /-- Each reference leads to the next one, and the last leads to the first again. -/
  | cyclicReference (chain : List String)
  | malformed (malformation : Malformation)
  | unknownField (definition field : String)
  | immutableDefinition (definition field : String)
  | nullNotAllowed (definition field : String)
  | file (fault : FileFault)

namespace Failure

/-- Names in a row. -/
def chained (names : List String) : String := " -> ".intercalate names

/-- The wording of a failure. -/
def message : Failure → String
  | .duplicateDefinition name => "duplicate definition '" ++ name ++ "'"
  | .unknownDefinition name none => "unknown definition '" ++ name ++ "'"
  | .unknownDefinition name (some site) =>
    "unknown definition '" ++ name ++ "' (referenced from " ++ site ++ ")"
  | .cyclicInheritance chain => "cyclic inheritance: " ++ chained chain
  | .incompatibleOverride definition field ancestor inherited overriding =>
    "incompatible override of '" ++ definition ++ "." ++ field ++ "': '" ++ overriding
      ++ "' does not accept inherited '" ++ inherited ++ "' from '" ++ ancestor ++ "'"
  | .cyclicShape path => "cyclic shape: " ++ chained path
  | .unsupportedRoot found =>
    "unsupported root type '" ++ found ++ "': a definition must describe a record"
  | .cyclicReference chain => "cyclic reference: " ++ chained chain
  | .malformed malformation => "malformed source: " ++ malformation.message
  | .unknownField definition field =>
    "unknown field '" ++ field ++ "' on definition '" ++ definition ++ "'"
  | .immutableDefinition definition field =>
    "definition '" ++ definition ++ "' is immutable; cannot set '" ++ field ++ "' in place"
  | .nullNotAllowed definition field =>
    "field '" ++ definition ++ "." ++ field ++ "' is not nullable"
  | .file fault => "io error: " ++ fault.message

/-- A malformation that was found in a file is told with the path of the file. -/
def inFile (path : String) : Failure → Failure
  | .malformed cause => .malformed (.inFile path cause)
  | failure => failure

end Failure

end RecordDefinitions
