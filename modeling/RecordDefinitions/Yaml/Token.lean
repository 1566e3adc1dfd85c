import RecordDefinitions.Yaml.Scalar

/-!
# YAML tokens

The tokens of a YAML text. Blocks that are opened by indentation have tokens of
their own for their start and end.
-/

namespace RecordDefinitions.Yaml

inductive Token where
  | version (major minor : Nat)
  | tagHandle (handle : String) (expansion : Tag)
  | documentStart
  | documentEnd
  | blockSequenceStart
  | blockMappingStart
  | blockEnd
  | flowSequenceStart
  | flowSequenceEnd
  | flowMappingStart
  | flowMappingEnd
  | blockEntry
  | flowEntry
  | key
  | value
  | alias (name : String)
  | anchor (name : String)
  | tag (handle : String) (suffix : Tag)
  | scalar (style : ScalarStyle) (text : String)
  deriving DecidableEq

end RecordDefinitions.Yaml
