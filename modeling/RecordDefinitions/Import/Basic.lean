import RecordDefinitions.Inference.Basic
import RecordDefinitions.Schema.Conversion

/-!
# Importing definitions

Definitions from an OpenAPI document, from a JSON Schema document, or from a
sample of the data.
-/

namespace RecordDefinitions

/-- The kind that a document shows. -/
def DocumentKind.ofDocument (d : Document) : DocumentKind :=
  if d.has "openapi" && ((d.get? "components").bind (·.object? "schemas")).isSome then .openApi
  else if (d.string? "type" = some "object" && d.has "properties") || d.has "allOf"
      || d.has "$schema" then .jsonSchema
  else .data

namespace Import

/-- How deeply schemas may be nested through references. -/
def depthBound : Nat := 2000

/-- What an import gives, and the paths of the files that it asked for. -/
structure Outcome where
  result : Except Failure ImportResult
  asked : List Path

/-- The result of a conversion. -/
def converted (convert : Schema.Convert Unit) : Outcome :=
  let (result, t) := convert.run.run .empty
  ⟨result.map fun _ => ⟨t.definitions, t.warnings⟩, t.lookup.asked.reverse⟩

/-- Import a document whose schemas are nested at most `bound` deep. References to
files start at `base` where the document comes from no file. -/
def runWithin (bound : Nat) (o : ImportOptions) (loader : Loader) (base : Path)
    (context : ReferenceContext) : Outcome :=
  let s : Schema.Setting := ⟨o, ⟨base, loader⟩, bound⟩
  match o.kind.getD (.ofDocument context.document) with
  | .openApi => converted (Schema.convertOpenApi s context)
  | .jsonSchema => converted (Schema.convertSchema s context)
  | .data => ⟨Inference.infer o context.document, []⟩

/-- Import a document. -/
def run (o : ImportOptions) (loader : Loader) (base : Path) (context : ReferenceContext) :
    Outcome :=
  runWithin depthBound o loader base context

/-- Import a document that comes from no file. -/
def document (o : ImportOptions) (loader : Loader) (d : Document) : Outcome :=
  run o loader (o.base.getD .here) ⟨d, none⟩

/-- Import the document in a file. -/
def file (o : ImportOptions) (files : Files) (path : String) : Outcome :=
  match Source.readDocumentFile files path with
  | .error failure => ⟨.error failure, []⟩
  | .ok d =>
    let f := DocumentFile.ofText path
    run o (.ofFiles files) (o.base.getD (f.path.parent?.getD .here)) ⟨d, some f⟩

end Import

end RecordDefinitions
