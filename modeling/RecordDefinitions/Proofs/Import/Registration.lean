import RecordDefinitions.Proofs.Inference.Keys
import RecordDefinitions.Proofs.Inference.Tree
import RecordDefinitions.Proofs.Schema.Completeness
import RecordDefinitions.Proofs.Schema.Legs

/-!
# Imports that a registry takes

An import gives names to definitions and writes the types of their fields, but it takes the names
of fields from the document as they stand. So a registry takes what was imported unless a field
has no name, or a type is not read because of what stands before the names.
-/

namespace RecordDefinitions

/-- A registry takes the declarations. -/
def Declarations.Loads (declarations : Declarations) : Prop :=
  ∃ registry, Registry.ofDeclarations declarations = .ok registry

/-- The types of all fields are read. -/
def Declarations.TypesRead (declarations : Declarations) : Prop :=
  ∀ p ∈ declarations.toList, ∀ f ∈ p.2.fields.toList,
    ∃ read, TypeExpr.readNullable f.2.type = .ok read

namespace Import

open Schema

/-- A record that an import comes to has something under a key: an object of a sample a member,
or a schema that a name is reserved for a property. -/
inductive Collects (o : ImportOptions) (loader : Loader) (base : Path)
    (context : ReferenceContext) (key : String) : Prop
  | sample {s : Inference.Sample} :
    o.kind.getD (.ofDocument context.document) = .data →
    Inference.Inside (.object s) context.document → key ∈ namesOf s →
      Collects o loader base context key
  | schema {v : Reservation} {depth : Nat} {c : Composition} :
    o.kind.getD (.ofDocument context.document) ≠ .data →
    Reserved (setting o loader base) (entriesOf o context) v →
    composed ⟨base, loader⟩ depth v.trail v.schema v.context .empty = .ok c →
    key ∈ c.properties.names → Collects o loader base context key

variable {o : ImportOptions} {loader : Loader} {base : Path} {context : ReferenceContext}
  {bound : Nat} {r : ImportResult}

theorem infer_of_result (hkind : o.kind.getD (.ofDocument context.document) = .data)
    (h : (runWithin bound o loader base context).result = .ok r) :
    Inference.infer o context.document = .ok r := by
  rw [runWithin_eq, hkind] at h
  exact h

theorem composed_unique {resolver : ReferenceResolver} {depth depth' : Nat} {trail : Trail}
    {schema : Document} {inner : ReferenceContext} {start c c' : Composition}
    (h : composed resolver depth trail schema inner start = .ok c)
    (h' : composed resolver depth' trail schema inner start = .ok c') : c = c' := by
  have hlarge := composed_ok_of_le (Nat.le_max_left depth depth') h
  rw [composed_ok_of_le (Nat.le_max_right depth depth') h'] at hlarge
  exact (Except.ok.inj hlarge).symm

/-- The fields of imported definitions are what the import collects. -/
theorem exists_field_iff_collects (h : (runWithin bound o loader base context).result = .ok r)
    (key : String) :
    (∃ p ∈ r.definitions.toList, key ∈ p.2.fields.names) ↔ Collects o loader base context key := by
  by_cases hkind : o.kind.getD (.ofDocument context.document) = .data
  · rw [Inference.exists_field_iff_of_infer (infer_of_result hkind h)]
    constructor
    · rintro ⟨s, hinside, hkey⟩
      exact .sample hkind hinside hkey
    · rintro (⟨-, hinside, hkey⟩ | ⟨hschema, -, -, -⟩)
      · exact ⟨_, hinside, hkey⟩
      · exact absurd hkind hschema
  · constructor
    · rintro ⟨p, hp, hkey⟩
      obtain ⟨v, hv, -, hfinished, -⟩ := exists_reserved_of_mem hkind h hp
      obtain ⟨depth, c, hcomposed, hfields⟩ := hfinished.properties
      exact .schema hkind hv hcomposed (hfields ▸ hkey)
    · rintro (⟨hdata, -, -⟩ | ⟨-, hv, hcomposed, hkey⟩)
      · exact absurd hdata hkind
      · obtain ⟨⟨d, hd, hfinished⟩, -⟩ := defined_of_reserved hkind h hv
        obtain ⟨depth', c', hcomposed', hfields⟩ := hfinished.properties
        refine ⟨_, (Catalogue.find?_eq_some_iff.mp hd).1, ?_⟩
        rw [hfields, ← composed_unique hcomposed hcomposed']
        exact hkey

/-- Every imported definition has a name. -/
theorem name_ne_empty_of_result (h : (runWithin bound o loader base context).result = .ok r) :
    ∀ p ∈ r.definitions.toList, p.1 ≠ "" := by
  intro p hp
  by_cases hkind : o.kind.getD (.ofDocument context.document) = .data
  · exact Inference.name_ne_empty_of_infer (infer_of_result hkind h) p hp
  · obtain ⟨-, -, -, -, ⟨used, key, hname⟩, -⟩ := exists_reserved_of_mem hkind h hp
    rw [hname]
    exact Naming.uniqueName_ne_empty (Naming.isTypeName_typeName key rfl) used

/-- Under a plain namespace the types of imported fields are read. -/
theorem typesRead_of_result (ho : o.HasPlainNamespace)
    (h : (runWithin bound o loader base context).result = .ok r) : r.definitions.TypesRead := by
  intro p hp f hf
  by_cases hkind : o.kind.getD (.ofDocument context.document) = .data
  · have htree := Inference.isTree_definitions ho (infer_of_result hkind h)
    obtain ⟨type, htype⟩ := htree.read p hp f hf
    obtain ⟨read, hread, -⟩ := bind_eq_ok_iff.mp htype
    exact ⟨read, hread⟩
  · obtain ⟨-, -, -, -, -, hamong⟩ := exists_reserved_of_mem hkind h hp
    obtain ⟨type, htext, htype⟩ := hamong f hf
    rw [htext]
    exact ⟨_, (htype.readable ho).readNullable_text⟩

/-- A registry takes what was imported if and only if the import has come to nothing under the
empty key and the types of all fields are read. The types are read under a plain namespace. -/
theorem loads_iff_of_result (h : (runWithin bound o loader base context).result = .ok r) :
    (r.definitions.Loads ↔ ¬ Collects o loader base context "" ∧ r.definitions.TypesRead) ∧
      (o.HasPlainNamespace → r.definitions.TypesRead) := by
  refine ⟨?_, fun ho => typesRead_of_result ho h⟩
  rw [Declarations.Loads, Registry.exists_ofDeclarations_iff, ← exists_field_iff_collects h]
  constructor
  · intro hload
    refine ⟨?_, fun p hp f hf => ((hload p hp).2 f hf).2⟩
    rintro ⟨p, hp, hkey⟩
    obtain ⟨f, hf, hname⟩ := List.mem_map.mp hkey
    exact ((hload p hp).2 f hf).1 hname
  · rintro ⟨hnone, htypes⟩ p hp
    refine ⟨name_ne_empty_of_result h p hp, fun f hf => ⟨?_, htypes p hp f hf⟩⟩
    intro hname
    exact hnone ⟨p, hp, hname ▸ List.mem_map_of_mem (f := nameOf) hf⟩

/-- A registry takes the nodes that are imported from their schema. -/
theorem loads_iff_of_result_nodeSchema :
    ∃ r, (runWithin 8 nodeOptions (.ofList []) .here ⟨nodeSchema, none⟩).result = .ok r ∧
      r.definitions.Loads ∧
      ¬ Collects nodeOptions (.ofList []) .here ⟨nodeSchema, none⟩ "" ∧
      r.definitions.TypesRead := by
  have hcheck : (match (runWithin 8 nodeOptions (.ofList []) .here ⟨nodeSchema, none⟩).result with
      | .ok r => (Registry.ofDeclarations r.definitions).toOption.isSome
      | .error _ => false) = true := by decide +kernel
  split at hcheck
  · rename_i r hr
    have hload : r.definitions.Loads := by
      cases hregistry : Registry.ofDeclarations r.definitions with
      | ok registry => exact ⟨registry, hregistry⟩
      | error e =>
        rw [hregistry] at hcheck
        cases hcheck
    obtain ⟨hnone, htypes⟩ := (loads_iff_of_result hr).1.mp hload
    exact ⟨r, hr, hload, hnone, htypes⟩
  · cases hcheck

/-- Behind a namespace that is no path of identifiers the name of a definition is no type. -/
example :
    (match (document { ImportOptions.usual with namespaceName := some "my-api" } (.ofList [])
        (.object [("owner", .object [("name", .string "Ada")])])).result with
    | .ok r => (Registry.ofDeclarations r.definitions).toOption.isSome
    | .error _ => true) = false := by
  decide +kernel

def unnamedSample : Document := .object [("", .number (.integer 1))]

/-- A sample with an empty key is imported, and no registry takes its definition. -/
theorem not_loads_unnamedSample :
    ∃ r, (document .usual (.ofList []) unnamedSample).result = .ok r ∧
      Registry.ofDeclarations r.definitions = .error (.malformed (.emptyFieldName "Root")) ∧
      ¬ r.definitions.Loads := by
  have hresult : ∃ r, (document .usual (.ofList []) unnamedSample).result = .ok r ∧
      Registry.ofDeclarations r.definitions = .error (.malformed (.emptyFieldName "Root")) :=
    ⟨_, rfl, rfl⟩
  obtain ⟨r, hr, herror⟩ := hresult
  refine ⟨r, hr, herror, ?_⟩
  rintro ⟨registry, hregistry⟩
  cases herror.symm.trans hregistry

end Import

end RecordDefinitions
