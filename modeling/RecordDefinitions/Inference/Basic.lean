import RecordDefinitions.Failure
import RecordDefinitions.Inference.Naming

/-!
# Inferring definitions from samples

A sample is an object; a document is one sample or a list of samples.
-/

namespace RecordDefinitions.Inference

/-- What a document is, as a message names it. -/
def kindName : Document → String
  | .null => "null"
  | .bool _ => "bool"
  | .number (.integer _) => "int"
  | .number (.real _) => "float"
  | .string _ => "string"
  | .array _ => "array"
  | .object _ => "object"

/-- The samples that a document holds. -/
def samplesOf : Document → Except Failure (List Sample)
  | .object members => .ok [members]
  | .array [] => .error (.unsupportedRoot "empty array")
  | .array items =>
    items.mapM fun item =>
      match item with
      | .object members => .ok members
      | d => .error (.unsupportedRoot ("array of " ++ kindName d))
  | d => .error (.unsupportedRoot (kindName d))

/-- The definitions that describe the samples in a document, the one for the
samples themselves first. -/
def infer (o : ImportOptions) (d : Document) : Except Failure ImportResult := do
  let fields := summary (← samplesOf d)
  let (_, i) := (nameRoot o fields).run .empty
  return ⟨i.definitions, i.warnings⟩

end RecordDefinitions.Inference
