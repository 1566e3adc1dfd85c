import RecordDefinitions.Location.Path

/-!
# Source formats

The two formats in which definitions and documents are written.
-/

namespace RecordDefinitions

inductive Format where
  | json
  | yaml
  deriving DecidableEq

namespace Format

/-- The format by its usual name. -/
def name : Format → String
  | .json => "JSON"
  | .yaml => "YAML"

/-- The usual ending of a file. -/
def extension : Format → String
  | .json => "json"
  | .yaml => "yaml"

/-- The format of a file. Only the endings `yaml` and `yml`, in any case, say
that it is YAML. -/
def ofPath (p : Path) : Format :=
  match p.extension?.map fun e => e.toList.map Char.toLower with
  | some ['y', 'a', 'm', 'l'] | some ['y', 'm', 'l'] => .yaml
  | _ => .json

end Format

end RecordDefinitions
