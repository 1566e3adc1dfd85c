import RecordDefinitions.Import.Options
import RecordDefinitions.Import.Reference

/-!
# Schemas

A schema is a document that describes values. One with properties or with parts
to be put together describes records, and becomes a definition; any other becomes
a part of the type of the field where it is used.
-/

namespace RecordDefinitions.Schema

/-- Whether a schema describes records. -/
def isRecord (schema : Document) : Bool :=
  (schema.object? "properties").isSome || (schema.array? "allOf").isSome

/-- The kind of a value that a schema gives literally; null has none. -/
def literalKind? : Document → Option ScalarKind
  | .null => none
  | .bool _ => some .bool
  | .number (.integer _) => some .int
  | .number (.real _) => some .float
  | .string _ => some .string
  | .array _ | .object _ => some .mixed

/-- The type of some literal values, and whether null is among them. -/
def literalType (values : List Document) : TypeExpr × Bool :=
  (TypeExpr.unionOf ((values.filterMap literalKind?).map .scalar), values.any Document.isNull)

/-- What tells one target from another: its file and its decoded pointer. -/
structure TargetKey where
  path : Option Path
  pointer : String
  deriving DecidableEq

def targetKey (t : ReferenceTarget) : TargetKey :=
  ⟨t.context.file.map (·.path), Pointer.decoded t.pointer⟩

/-- A name that the target itself suggests: its key, or for a whole document its
title or else the name of its file. -/
def suggestedName? (t : ReferenceTarget) : Option String :=
  match Pointer.lastKey? t.pointer with
  | some key => some key
  | none =>
    if t.pointer.isEmpty then
      (t.schema.string? "title").or (t.context.file.bind fun f => f.path.fileStem?)
    else none

/-- The references that are being followed, each with its spelling, the outermost
one first. -/
abbrev Trail := List (TargetKey × String)

/-- The targets of the references. -/
def Trail.keys (trail : Trail) : List TargetKey := trail.map Prod.fst

/-- Follow one more reference, unless its target is being followed already. The
cycle then starts where that target was entered. -/
def Trail.enter (trail : Trail) (key : TargetKey) (reference : String) : Except Failure Trail :=
  if key ∈ trail.keys then
    .error (.cyclicReference ((trail.dropWhile (·.1 ≠ key)).map Prod.snd ++ [reference]))
  else .ok (trail ++ [(key, reference)])

theorem Trail.enter_eq_ok_iff {trail next : Trail} {key : TargetKey} {reference : String} :
    trail.enter key reference = .ok next ↔
      key ∉ trail.keys ∧ trail ++ [(key, reference)] = next := by
  by_cases h : key ∈ trail.keys <;> simp [Trail.enter, h]

theorem Trail.nodup_keys_of_enter {trail next : Trail} {key : TargetKey} {reference : String}
    (h : trail.enter key reference = .ok next) (once : trail.keys.Nodup) : next.keys.Nodup := by
  obtain ⟨away, rfl⟩ := Trail.enter_eq_ok_iff.mp h
  simp only [Trail.keys, List.map_append, List.map_cons, List.map_nil, List.nodup_append] at away ⊢
  exact ⟨once, by simp, by rintro a member b single rfl; simp_all⟩

/-- What is known while schemas are converted. -/
structure Progress where
  lookup : LookupMemory
  /-- The definitions so far; one that is being converted has no fields yet. -/
  definitions : Declarations
  usedNames : List String
  /-- The definitions that targets have become. -/
  named : List (TargetKey × String)
  warnings : List String

/-- Nothing has been converted. -/
def Progress.empty : Progress := ⟨.empty, .empty, [], [], []⟩

abbrev Convert := ExceptT Failure (StateM Progress)

/-- What a conversion depends on beside the document. -/
structure Setting where
  options : ImportOptions
  resolver : ReferenceResolver
  /-- How deeply schemas may be nested through references. -/
  bound : Nat

/-- Look something up and remember what was read. -/
def ofLookup {α : Type} (lookup : Lookup α) : Convert α :=
  ExceptT.mk fun t =>
    let (result, memory) := lookup.run.run t.lookup
    (result, { t with lookup := memory })

def ofExcept {α : Type} (result : Except Failure α) : Convert α := ExceptT.mk (pure result)

/-- Schemas are nested more deeply than the bound. -/
def tooDeep {α : Type} : Convert α := throw (.malformed .endlessReferences)

/-- What a reference leads to; here it has to lead somewhere. -/
def target (s : Setting) (reference : String) (context : ReferenceContext) :
    Convert ReferenceTarget := do
  match ← ofLookup (s.resolver.resolve reference context) with
  | some t => return t
  | none => throw (.malformed (.unresolvableReference reference))

def warn (warning : String) : Convert Unit :=
  modify fun t => { t with warnings := t.warnings ++ [warning] }

end RecordDefinitions.Schema
