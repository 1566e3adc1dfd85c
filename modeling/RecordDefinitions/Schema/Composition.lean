import RecordDefinitions.Schema.Basic

/-!
# Composed schemas

The properties of a schema that is put together from parts: those of the parts
from left to right and then its own. A property that comes again keeps its place
and takes the later schema, in the document where that stands.
-/

namespace RecordDefinitions.Schema

/-- The schema of a property and the document that it stands in. -/
structure Property where
  schema : Document
  context : ReferenceContext

structure Composition where
  properties : Catalogue (String × Property)
  /-- The names of the required properties, each once. -/
  required : List String

/-- No properties. -/
def Composition.empty : Composition := ⟨.empty, []⟩

/-- Append a name unless it is there already. -/
def appendName (names : List String) (name : String) : List String :=
  if name ∈ names then names else names ++ [name]

/-- Add what a schema itself declares. -/
def Composition.declare (c : Composition) (schema : Document) (context : ReferenceContext) :
    Composition where
  properties :=
    ((schema.object? "properties").getD []).foldl
      (fun ps (name, property) => ps.insert (name, ⟨property, context⟩)) c.properties
  required :=
    (((schema.array? "required").getD []).filterMap Document.asString?).foldl appendName c.required

/-- Add what a schema declares, its parts and the target of its reference included. -/
def compose (s : Setting) :
    Nat → Trail → Document → ReferenceContext → Composition → Convert Composition
  | 0, _, _, _, _ => tooDeep
  | depth + 1, trail, schema, context, c =>
    match schema.string? "$ref" with
    | some reference => do
      let t ← target s reference context
      let trail ← ofExcept (trail.enter (targetKey t) reference)
      compose s depth trail t.schema t.context c
    | none => do
      let c ← ((schema.array? "allOf").getD []).foldlM
        (fun c part => compose s depth trail part context c) c
      return c.declare schema context

end RecordDefinitions.Schema
