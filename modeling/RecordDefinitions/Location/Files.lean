import RecordDefinitions.Failure

/-!
# Files

Where texts are read from: a function from the text of a path to what the file
holds. A file tree is such a place that is held in memory.
-/

namespace RecordDefinitions

/-- What is read at the text of a path. -/
abbrev Files := String → Except FileFault String

/-- The place without files. -/
def Files.none : Files := fun _ => .error .missing

/-- Files below the current directory, by their path. Of two files at one path
the later one counts. -/
structure FileTree where
  files : List (Path × String)

namespace FileTree

/-- The file tree of files that are written one after the other. -/
def ofList (files : List (String × String)) : FileTree :=
  ⟨files.reverse.map fun (path, text) => ((Path.ofText path).normalize, text)⟩

/-- The file at the end of some names. -/
def file? (t : FileTree) (names : List String) : Option String :=
  t.files.lookup ⟨false, names.map .down⟩

/-- Whether there is a directory at the end of some names. -/
def isDirectory (t : FileTree) (names : List String) : Bool :=
  names.isEmpty
    || t.files.any fun (p, _) =>
      (names.map PathStep.down).isPrefixOf p.steps && names.length < p.steps.length

/-- Walk along the pieces of a path from a directory. A path that leaves the tree
finds nothing. -/
def walk (t : FileTree) (directory : List String) : List String → Except FileFault String
  | [] => .error .isDirectory
  | "" :: rest => t.walk directory rest
  | "." :: rest => t.walk directory rest
  | ".." :: rest =>
    if directory.isEmpty then (if rest.isEmpty then .error .isDirectory else .error .missing)
    else t.walk directory.dropLast rest
  | name :: rest =>
    let names := directory ++ [name]
    match t.file? names with
    | some text => if rest.isEmpty then .ok text else .error .notDirectory
    | none => if t.isDirectory names then t.walk names rest else .error .missing

/-- The text at a path. -/
def read (t : FileTree) : Files := fun path =>
  if path.isEmpty || path.toList.head? == some '/' then .error .missing
  else t.walk [] ((Text.pieces (· == '/') path.toList).map String.ofList)

end FileTree

end RecordDefinitions
