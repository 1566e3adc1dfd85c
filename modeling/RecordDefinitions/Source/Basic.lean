import RecordDefinitions.Declaration.Encoding
import RecordDefinitions.Json.Writer
import RecordDefinitions.Location.Files
import RecordDefinitions.Yaml.Declarations
import RecordDefinitions.Yaml.Reader
import RecordDefinitions.Yaml.Writer

/-!
# Sources

Reading and writing documents and declarations in both formats.
-/

namespace RecordDefinitions.Source

/-- Read a document of either format. No object in it repeats a key. -/
def readDocument (format : Format) (text : String) : Except Failure Document :=
  let failed (fault : TextFault) : Failure := .malformed (.document format fault)
  match format with
  | .json => ((Json.read text).map Document.merged).mapError (failed <| .json ·)
  | .yaml => (Yaml.read text).mapError (failed <| .yaml ·)

/-- Read a set of declarations. -/
def readDeclarations (format : Format) (text : String) : Except Failure Declarations := do
  let failed (fault : TextFault) : Failure := .malformed (.declarations format fault)
  match format with
  | .json =>
    let d ← (Json.read text).mapError (failed <| .json ·)
    (Declarations.ofDocument d).mapError (failed <| .declarations ·)
  | .yaml => (Yaml.readDeclarations text).mapError (failed <| .yaml ·)

/-- Write a set of declarations; the text ends with a line feed. -/
def writeDeclarations (format : Format) (decls : Declarations) : String :=
  match format with
  | .json => Json.pretty decls.toDocument ++ "\n"
  | .yaml => Yaml.write decls.toDocument

/-- The text of a file. -/
def readFile (files : Files) (path : String) : Except Failure String :=
  (files path).mapError .file

/-- Read the declarations in a file, in the format that its path says. -/
def readDeclarationsFile (files : Files) (path : String) : Except Failure Declarations := do
  let text ← readFile files path
  (readDeclarations (Format.ofPath (Path.ofText path)) text).mapError (Failure.inFile path)

/-- Read the document in a file, in the format that its path says. -/
def readDocumentFile (files : Files) (path : String) : Except Failure Document := do
  let text ← readFile files path
  (readDocument (Format.ofPath (Path.ofText path)) text).mapError (Failure.inFile path)

end RecordDefinitions.Source
