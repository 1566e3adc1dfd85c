import RecordDefinitions.Import.Pointer
import RecordDefinitions.Source.Basic

/-!
# References

A reference names a part of the document it stands in, or of a document in a file
near it. Files are read through a loader, and a file that has been read is
remembered. What cannot be found is no failure; a file that is no document is one.
-/

namespace RecordDefinitions

/-- Where referenced files come from. None stands for a file that is not there or
cannot be read. -/
abbrev Loader := Path → Option String

/-- The files of a place as a loader. -/
def Loader.ofFiles (files : Files) : Loader := fun p => (files p.text).toOption

/-- Documents that are held in memory, by path. Of two at one place the later one
counts. -/
def Loader.ofList (documents : List (String × String)) : Loader := fun p =>
  (documents.reverse.map fun (path, text) => ((Path.ofText path).normalize, text)).lookup p.normalize

/-- The file that a document came from: its path, and how the path was spelled. -/
structure DocumentFile where
  path : Path
  spelling : String

/-- A file whose path is spelled in its usual way. -/
def DocumentFile.ofPath (p : Path) : DocumentFile := ⟨p, p.text⟩

/-- A file that is known by a spelling of its path. -/
def DocumentFile.ofText (text : String) : DocumentFile := ⟨.ofText text, text⟩

/-- A document in which references stand, with the file that it came from. -/
structure ReferenceContext where
  document : Document
  file : Option DocumentFile

/-- What a reference leads to. -/
structure ReferenceTarget where
  schema : Document
  /-- The document that the schema is a part of, for references inside it. -/
  context : ReferenceContext
  /-- The way to the schema, as the reference spells it. -/
  pointer : String

/-- The documents that have been read, and the paths that were asked for, the last
one first. -/
structure LookupMemory where
  documents : List (Path × Document)
  asked : List Path

namespace LookupMemory

/-- Nothing has been read. -/
def empty : LookupMemory := ⟨[], []⟩

end LookupMemory

abbrev Lookup := ExceptT Failure (StateM LookupMemory)

/-- Where references are looked up. -/
structure ReferenceResolver where
  /-- The directory of references in documents that come from no file. -/
  base : Path
  loader : Loader

namespace ReferenceResolver

/-- Letters, digits and a few marks, at least two, before a colon: the scheme of
an address that is no path. -/
def hasScheme (location : List Char) : Bool :=
  match location with
  | [] => false
  | c :: rest =>
    let isMark (d : Char) : Bool := d.isAlphanum || d == '+' || d == '.' || d == '-'
    c.isAlpha && rest.head?.any isMark && (rest.dropWhile isMark).head? == some ':'

/-- A reference as the file that it names and the pointer into it. -/
def cutReference (reference : String) : List Char × String :=
  match Text.cutFirst '#' reference.toList with
  | some (location, fragment) => (location, String.ofList fragment)
  | none => (reference.toList, "")

/-- The path of a file that a reference in some document names. -/
def locate (resolver : ReferenceResolver) (location : String) (context : ReferenceContext) : Path :=
  let target := Path.ofText location
  let base := (context.file.bind fun f => f.path.parent?).getD resolver.base
  (if target.absolute then target else base.join target).normalize

/-- The document in a file, if there is such a file. -/
def load (resolver : ReferenceResolver) (path : Path) : Lookup (Option Document) := do
  match (← get).documents.lookup path with
  | some d => return some d
  | none =>
    modify fun m => { m with asked := path :: m.asked }
    match resolver.loader path with
    | none => return none
    | some text =>
      match Source.readDocument (Format.ofPath path) text with
      | .error failure => throw (failure.inFile path.text)
      | .ok d =>
        modify fun m => { m with documents := (path, d) :: m.documents }
        return some d

/-- What a reference leads to from the document that it stands in. -/
def resolve (resolver : ReferenceResolver) (reference : String) (context : ReferenceContext) :
    Lookup (Option ReferenceTarget) := do
  let (location, pointer) := cutReference reference
  if location.isEmpty then
    return (Pointer.find? context.document pointer).map (⟨·, context, pointer⟩)
  else if hasScheme location then return none
  else
    let path := resolver.locate (String.ofList location) context
    match ← resolver.load path with
    | none => return none
    | some d => return (Pointer.find? d pointer).map (⟨·, ⟨d, some (.ofPath path)⟩, pointer⟩)

end ReferenceResolver

end RecordDefinitions
