import RecordDefinitions.Command.Answer

/-!
# The program

The command line: arguments, files and streams of the system around
`Answer.ofRequest`. The answer is computed again until it asks for no file that has
not been read.
-/

namespace RecordDefinitions

/-- What the system says about a file. -/
def readPath (path : String) : IO (Except FileFault String) := do
  try
    let octets ← IO.FS.readBinFile path
    match String.fromUTF8? octets with
    | some text => return .ok text
    | none => return .error .notText
  catch e =>
    match e with
    | .noFileOrDirectory .. => return .error .missing
    | .inappropriateType .. => return .error .isDirectory
    | e => return .error (.other (toString e))

/-- The answer to a request when every file that it asks for has been read. -/
partial def answer (read : List (String × Except FileFault String)) (request : Request) :
    IO Answer := do
  let a := Answer.ofRequest (fun path => (read.lookup path).getD (.error .missing)) request
  let unread := a.asked.filter fun path => (read.lookup path).isNone
  if unread.isEmpty then return a
  let more ← unread.mapM fun path => do return (path, ← readPath path)
  answer (more ++ read) request

end RecordDefinitions

open RecordDefinitions in
def main (arguments : List String) : IO UInt32 := do
  let base ← IO.getEnv "DTO_FORGE_BASE_PATH"
  let a ← answer [] (Request.ofArguments base arguments)
  IO.eprint a.errors
  IO.print a.output
  return a.exit.toUInt32
