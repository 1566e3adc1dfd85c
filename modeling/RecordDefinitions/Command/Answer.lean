import RecordDefinitions.Command.Arguments
import RecordDefinitions.Import.Basic
import RecordDefinitions.View.Document

/-!
# Answers

What the program answers to a request: its exit status, and what it writes for
other programs and for the user. Files are read through a function; a place that
does not hold them yet can see from the answer which paths were asked for.
-/

namespace RecordDefinitions

structure Answer where
  exit : Nat
  output : String
  errors : String
  /-- The texts of the paths of the files that were asked for. -/
  asked : List String

namespace Command

/-- What a command gives: a text with warnings, or a failure. -/
structure Outcome where
  result : Except Failure (String × List String)
  asked : List String

/-- The text that is made of the declarations in a file. -/
def ofDeclarations (files : Files) (file : String) (make : Declarations → Except Failure String) :
    Outcome where
  result := do return (← make (← Source.readDeclarationsFile files file), [])
  asked := [file]

/-- Run a command. -/
def run (files : Files) : Command → Outcome
  | .importFile file options format =>
    let o := Import.file options files file
    { result := o.result.map fun r => (Source.writeDeclarations format r.definitions, r.warnings)
      asked := file :: o.asked.map Path.text }
  | .resolveFile file =>
    ofDeclarations files file fun decls => do
      return Json.pretty (← ViewModel.ofDeclarations decls).toDocument ++ "\n"
  | .generateFile file target => ofDeclarations files file target.generate
  | .convertFile file format =>
    ofDeclarations files file fun decls => .ok (Source.writeDeclarations format decls)

end Command

namespace Answer

/-- What is written to a user who asks for help. -/
def usage : String :=
  "Usage: dto-forge [-v] <import|resolve|generate|convert> <FILE> [OPTIONS]\n"

/-- The name of the program and its version. -/
def versionLine : String := "dto-forge 0.1.0\n"

/-- The answer to an outcome. Warnings are told before the text is written. -/
def ofOutcome (o : Command.Outcome) : Answer :=
  match o.result with
  | .ok (text, warnings) =>
    ⟨0, text, String.join (warnings.map fun w => "warning: " ++ w ++ "\n"), o.asked⟩
  | .error failure => ⟨1, "", "error: " ++ failure.message ++ "\n", o.asked⟩

/-- The answer to a request. -/
def ofRequest (files : Files) : Request → Answer
  | .run _ command => ofOutcome (command.run files)
  | .help => ⟨0, usage, "", []⟩
  | .version => ⟨0, versionLine, "", []⟩
  | .refused fault => ⟨2, "", "error: " ++ fault.message ++ "\n\n" ++ usage, []⟩

end Answer

end RecordDefinitions
