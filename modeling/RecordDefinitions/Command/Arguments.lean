import RecordDefinitions.Generation.Target
import RecordDefinitions.Import.Options

/-!
# Command line arguments

What the arguments of a command line ask for. An option with a value is written
`--name value` or `--name=value` and at most once; two hyphens alone end the
options. The first word that is no option names the command.
-/

namespace RecordDefinitions

/-- What the program is asked to do. -/
inductive Command where
  | importFile (file : String) (options : ImportOptions) (format : Format)
  | resolveFile (file : String)
  | generateFile (file : String) (target : Target)
  | convertFile (file : String) (format : Format)

/-- Why arguments make no sense. -/
inductive UsageFault where
  | noCommand
  | unknownCommand (name : String)
  | unexpected (argument : String)
  | missingValue (option : String)
  | badValue (option value : String)
  | missingOption (option : String)
  | repeated (option : String)
  | noFile

def UsageFault.message : UsageFault → String
  | .noCommand => "a command is required: import, resolve, generate or convert"
  | .unknownCommand name => "unknown command '" ++ name ++ "'"
  | .unexpected argument => "unexpected argument '" ++ argument ++ "'"
  | .missingValue option => "'--" ++ option ++ "' needs a value"
  | .badValue option value => "invalid value '" ++ value ++ "' for '--" ++ option ++ "'"
  | .missingOption option => "'--" ++ option ++ "' is required"
  | .repeated option => "'--" ++ option ++ "' is given more than once"
  | .noFile => "a file is required"

/-- What a command line asks for. -/
inductive Request where
  | run (verbose : Bool) (command : Command)
  | help
  | version
  | refused (fault : UsageFault)

/-- The arguments after a command's name, taken apart. -/
structure Arguments where
  /-- The options that are given and their values, the last one first. -/
  options : List (String × String)
  /-- The arguments that are no options, the last one first. -/
  words : List String
  /-- How often `verbose` is given. -/
  verbose : Nat
  help : Bool

namespace Arguments

def none : Arguments := ⟨[], [], 0, false⟩

/-- Whether a text may be the value after an option. -/
def isValue (text : String) : Bool := text == "-" || text.toList.head? != some '-'

/-- Add the value of an option. -/
def withOption (a : Arguments) (name value : String) : Except UsageFault Arguments :=
  if (a.options.lookup name).isSome then .error (.repeated name)
  else .ok { a with options := (name, value) :: a.options }

/-- Add the letters of an argument with a single hyphen. -/
def withLetters (a : Arguments) (argument : String) (letters : List Char) :
    Except UsageFault Arguments :=
  letters.foldlM
    (fun a c =>
      if a.help then .ok a
      else if c == 'v' then .ok { a with verbose := a.verbose + 1 }
      else if c == 'h' then .ok { a with help := true }
      else .error (.unexpected argument))
    a

/-- The name of a long option and the value after its equals sign. -/
def longOption (argument : String) : String × Option String :=
  match Text.cutFirst '=' (argument.toList.drop 2) with
  | some (name, value) => (String.ofList name, some (String.ofList value))
  | .none => (String.ofList (argument.toList.drop 2), .none)

/-- Take arguments apart; `valued` are the options with a value. What follows a
wish for help does not count. -/
def scan (valued : List String) (a : Arguments) : List String → Except UsageFault Arguments
  | [] => .ok a
  | "--" :: rest => .ok { a with words := rest.reverse ++ a.words }
  | argument :: rest =>
    if a.help then .ok a
    else if isValue argument then scan valued { a with words := argument :: a.words } rest
    else if argument.startsWith "--" then
      match longOption argument with
      | (name, value) =>
        if valued.contains name then
          match value, rest with
          | some value, rest => do scan valued (← a.withOption name value) rest
          | .none, value :: rest =>
            if isValue value then do scan valued (← a.withOption name value) rest
            else .error (.missingValue name)
          | .none, [] => .error (.missingValue name)
        else if argument = "--verbose" then scan valued { a with verbose := a.verbose + 1 } rest
        else if argument = "--help" then .ok { a with help := true }
        else .error (.unexpected argument)
    else do scan valued (← a.withLetters argument (argument.toList.drop 1)) rest

/-! ## Values -/

/-- The value of an option, read as one of some words. -/
def choice? {α : Type} (a : Arguments) (option : String) (words : List (String × α)) :
    Except UsageFault (Option α) :=
  match a.options.lookup option with
  | .none => .ok .none
  | some value =>
    match words.lookup value with
    | some chosen => .ok (some chosen)
    | .none => .error (.badValue option value)

/-- The value of an option that has to be given. -/
def choice {α : Type} (a : Arguments) (option : String) (words : List (String × α)) :
    Except UsageFault α := do
  match ← a.choice? option words with
  | some chosen => return chosen
  | .none => throw (.missingOption option)

/-- The only word, which is the path of a file. -/
def file (a : Arguments) : Except UsageFault String :=
  match a.words with
  | [] => .error .noFile
  | [path] => if path.isEmpty then .error .noFile else .ok path
  | last :: _ => .error (.unexpected last)

def formats : List (String × Format) := [("json", .json), ("yaml", .yaml)]

def targets : List (String × Target) := [("typescript", .typescript), ("rust", .rust)]

def kinds : List (String × DocumentKind) :=
  [("openapi", .openApi), ("json-schema", .jsonSchema), ("data", .data)]

/-- The options of an import. `base` is the directory of references that is used
when none is given. -/
def importOptions (a : Arguments) (base : Option String) : Except UsageFault ImportOptions := do
  let given := a.options.lookup "base-path"
  if given = some "" then throw (.badValue "base-path" "")
  return {
    kind := ← a.choice? "parser" kinds
    namespaceName := a.options.lookup "namespace"
    base := (given.or base).map Path.ofText
    rootName := (a.options.lookup "root-name").getD "Root" }

end Arguments

namespace Request

/-- The options with a value that a command has. -/
def valuedOptions? (command : String) : Option (List String) :=
  match command with
  | "import" => some ["parser", "namespace", "base-path", "root-name", "format"]
  | "resolve" => some []
  | "generate" => some ["target"]
  | "convert" => some ["format"]
  | _ => none

/-- The command of a name with its arguments. -/
def command (name : String) (a : Arguments) (base : Option String) : Except UsageFault Command := do
  let file ← a.file
  match name with
  | "import" =>
    let options ← a.importOptions base
    return .importFile file options ((← a.choice? "format" Arguments.formats).getD .json)
  | "resolve" => return .resolveFile file
  | "generate" => return .generateFile file (← a.choice "target" Arguments.targets)
  | _ => return .convertFile file (← a.choice "format" Arguments.formats)

/-- The request of a command and the arguments after it. -/
def ofCommand (verbose : Bool) (name : String) (rest : List String) (base : Option String) :
    Except UsageFault Request := do
  match valuedOptions? name with
  | none => throw (.unknownCommand name)
  | some valued =>
    let a ← Arguments.none.scan valued rest
    if a.help then return .help
    if 1 < a.verbose then throw (.repeated "verbose")
    return .run (verbose || a.verbose = 1) (← command name a base)

/-- Read the arguments up to the command, and then its own. -/
def scan (base : Option String) (verbose : Bool) : List String → Except UsageFault Request
  | [] => .error .noCommand
  | argument :: rest =>
    if argument = "-h" ∨ argument = "--help" ∨ argument = "help" then .ok .help
    else if argument = "-V" ∨ argument = "--version" then .ok .version
    else if argument = "-v" ∨ argument = "--verbose" then
      if verbose then .error (.repeated "verbose") else scan base true rest
    else if Arguments.isValue argument then ofCommand verbose argument rest base
    else .error (.unexpected argument)

/-- What a command line asks for. `base` is the directory of references that is
used when none is given. -/
def ofArguments (base : Option String) (arguments : List String) : Request :=
  match scan base false arguments with
  | .ok request => request
  | .error fault => .refused fault

end Request

end RecordDefinitions
