import RecordDefinitions.Text.Pieces

/-!
# Paths

A path of a file as a list of steps, and how paths are joined and normalised.
Two texts that differ only in repeated slashes, or in dots that change nothing,
are the same path; a dot at the very start of a relative path is kept.
-/

namespace RecordDefinitions

/-- One step of a path. -/
inductive PathStep where
  /-- Stay in the directory. -/
  | stay
  /-- Go to the directory above. -/
  | up
  /-- Go to the entry of that name. -/
  | down (name : String)
  deriving DecidableEq

/-- Steps from the root of the file system or from the current directory. -/
structure Path where
  absolute : Bool
  steps : List PathStep
  deriving DecidableEq

namespace Path

/-- The step that a text between two slashes is. -/
def stepOf (piece : List Char) : PathStep :=
  if piece = ['.'] then .stay else if piece = ['.', '.'] then .up else .down (String.ofList piece)

/-- Steps without those that stay. -/
def moving (steps : List PathStep) : List PathStep := steps.filter (· ≠ .stay)

/-- The steps that remain after the first place, where a dot counts. -/
def settled (absolute : Bool) : List PathStep → List PathStep
  | .stay :: rest => if absolute then moving rest else .stay :: moving rest
  | steps => moving steps

/-- The path that a text denotes. -/
def ofText (text : String) : Path :=
  let cs := text.toList
  let absolute := cs.head? == some '/'
  let pieces := (Text.pieces (· == '/') cs).filter fun p => !p.isEmpty
  ⟨absolute, settled absolute (pieces.map stepOf)⟩

/-- A step as text. -/
def stepText : PathStep → String
  | .stay => "."
  | .up => ".."
  | .down name => name

/-- The text of a path. -/
def text (p : Path) : String :=
  (if p.absolute then "/" else "") ++ "/".intercalate (p.steps.map stepText)

/-- The current directory. -/
def here : Path := ⟨false, [.stay]⟩

/-- A path seen from a directory. -/
def join (base target : Path) : Path :=
  if target.absolute then target
  else ⟨base.absolute, settled base.absolute (base.steps ++ target.steps)⟩

/-- Take one more step from a normal path. A step up takes back the step before
it, if there is one. -/
def walk (steps : List PathStep) : PathStep → List PathStep
  | .stay => steps
  | .up => if steps.isEmpty then [.up] else steps.dropLast
  | .down name => steps ++ [.down name]

/-- The path without steps that stay and without steps that are taken back. -/
def normalize (p : Path) : Path := ⟨p.absolute, p.steps.foldl walk []⟩

/-- The path without its last step. -/
def parent? (p : Path) : Option Path :=
  if p.steps.isEmpty then none else some ⟨p.absolute, p.steps.dropLast⟩

/-- The name at the end. -/
def fileName? (p : Path) : Option String :=
  match p.steps.getLast? with
  | some (.down name) => some name
  | _ => none

/-- A file name cut at its last point, unless that is its first character. -/
def cutAtPoint (name : String) : Option (String × String) :=
  match Text.cutLast '.' name.toList with
  | some ([], _) | none => none
  | some (stem, ending) => some (String.ofList stem, String.ofList ending)

/-- What follows the last point of the file name. -/
def extension? (p : Path) : Option String :=
  (p.fileName?.bind cutAtPoint).map Prod.snd

/-- The file name up to its last point. -/
def fileStem? (p : Path) : Option String :=
  p.fileName?.map fun name => ((cutAtPoint name).map Prod.fst).getD name

end Path

end RecordDefinitions
