import RecordDefinitions.Import.Basic
import RecordDefinitions.Proofs.Import.Place
import RecordDefinitions.Proofs.Schema.Replay

/-!
# The entries of a document

A document is imported by converting its entries one after the other: the schemas of
records that it keeps for reference and, for a schema document, the document itself.
Whatever an import converts is reached from an entry.
-/

namespace RecordDefinitions

namespace Schema

open Relation

/-- A target that an import starts with, the base of its name, and the way to it. -/
structure Entry where
  target : ReferenceTarget
  base : String
  way : List PlaceStep

/-- The entries among the members of the object at a place of the document, at the end of
some keys. -/
def recordEntries (context : ReferenceContext) (place : String) (keys : List String)
    (members : List (String × Document)) : List Entry :=
  (recordTargets context place members).map fun (key, t) =>
    ⟨t, (suggestedName? t).getD key, (keys ++ [key]).map .member⟩

/-- The entry for a schema document itself. -/
def rootEntries (o : ImportOptions) (context : ReferenceContext) : List Entry :=
  if isRecord context.document then
    [⟨⟨context.document, context, ""⟩, (context.document.string? "title").getD o.rootName, []⟩]
  else []

/-- The entries of a document of some kind. -/
def entries (kind : DocumentKind) (o : ImportOptions) (context : ReferenceContext) : List Entry :=
  match kind with
  | .openApi =>
    recordEntries context "/components/schemas" ["components", "schemas"]
      (components context.document)
  | .jsonSchema =>
    rootEntries o context ++ ["$defs", "definitions"].flatMap fun container =>
      recordEntries context ("/" ++ container) [container]
        ((context.document.object? container).getD [])
  | .data => []

/-- The conversion of an entry under two bounds. -/
def convertEntry (s : Setting) (i : Nat × Nat) (e : Entry) : Convert String :=
  defineOnce (s.within i.1) (fieldWithin s i) [] e.target e.base

/-- The conversion of some entries. -/
def convertAll (s : Setting) (i : Nat × Nat) (es : List Entry) : Convert Unit := do
  let _ ← es.mapM (convertEntry s i)
  return ⟨⟩

theorem lies_of_recordEntries {context : ReferenceContext} {place : String} {keys : List String}
    {members : List (String × Document)} (h : ∀ m ∈ members, m.2 ∈ context.document.parts)
    {e : Entry} (he : e ∈ recordEntries context place keys members) :
    e.target.context = context ∧ e.target.schema ∈ context.document.parts := by
  unfold recordEntries recordTargets at he
  rw [List.map_map] at he
  obtain ⟨m, hm, rfl⟩ := List.mem_map.mp he
  exact ⟨rfl, h m (List.mem_filter.mp hm).1⟩

theorem mem_parts_of_object?_getD {d : Document} {key : String} {m : String × Document}
    (h : m ∈ (d.object? key).getD []) : m.2 ∈ d.parts := by
  cases hkey : d.object? key with
  | none =>
    rw [hkey] at h
    cases h
  | some members =>
    rw [hkey] at h
    exact Document.mem_parts_of_object? hkey h

/-- Every entry is a part of the document. -/
theorem lies_of_entries {kind : DocumentKind} {o : ImportOptions} {context : ReferenceContext}
    {e : Entry} (he : e ∈ entries kind o context) :
    e.target.context = context ∧ e.target.schema ∈ context.document.parts := by
  cases kind with
  | openApi =>
    refine lies_of_recordEntries (fun m hm => ?_) he
    unfold components at hm
    cases hcomponents : context.document.get? "components" with
    | none =>
      rw [hcomponents] at hm
      cases hm
    | some d =>
      rw [hcomponents] at hm
      exact Document.parts_subset _ d (Document.mem_parts_of_get? hcomponents) m.2
        (mem_parts_of_object?_getD hm)
  | jsonSchema =>
    rcases List.mem_append.mp he with he | he
    · unfold rootEntries at he
      split at he
      · rw [List.mem_singleton.mp he]
        exact ⟨rfl, Document.mem_parts_self _⟩
      · cases he
    · obtain ⟨container, -, he⟩ := List.mem_flatMap.mp he
      exact lies_of_recordEntries (fun m hm => mem_parts_of_object?_getD hm) he
  | data => cases he

variable {s : Setting}

theorem convertTargets_eq (b : Nat) (context : ReferenceContext) (place : String)
    (keys : List String) (members : List (String × Document)) :
    convertTargets (s.within b) (recordTargets context place members) =
      convertAll s (b, b) (recordEntries context place keys members) := by
  unfold convertTargets convertAll recordEntries
  rw [List.mapM_map]
  exact forM_discard

theorem convertAll_append (i : Nat × Nat) (es es' : List Entry) :
    convertAll s i (es ++ es') = convertAll s i es >>= fun _ => convertAll s i es' := by
  unfold convertAll
  simp only [List.mapM_append, bind_assoc, pure_bind]

theorem convertOpenApi_eq (b : Nat) (context : ReferenceContext) :
    convertOpenApi (s.within b) context =
      convertAll s (b, b) (entries .openApi s.options context) :=
  convertTargets_eq b context _ _ _

theorem outcome_rootEntries (b : Nat) (context : ReferenceContext) :
    outcome (convertAll s (b, b) (rootEntries s.options context)) .empty =
      outcome (if isRecord context.document then do
          let title := (context.document.string? "title").getD s.options.rootName
          let _ ← defineTarget (s.within b) (fieldType (s.within b) b) []
            ⟨context.document, context, ""⟩ title
          return ⟨⟩
        else return ⟨⟩) .empty := by
  unfold convertAll rootEntries
  by_cases hrecord : isRecord context.document
  · rw [if_pos hrecord, if_pos hrecord]
    simp only [List.mapM_cons, List.mapM_nil, bind_assoc, pure_bind]
    rfl
  · rw [if_neg hrecord, if_neg hrecord]
    rfl

theorem outcome_convertSchema (b : Nat) (context : ReferenceContext) :
    outcome (convertSchema (s.within b) context) .empty =
      outcome (convertAll s (b, b) (entries .jsonSchema s.options context)) .empty := by
  have hdefs : (["$defs", "definitions"].forM fun container =>
      convertTargets (s.within b) (recordTargets context ("/" ++ container)
        ((context.document.object? container).getD []))) =
      convertAll s (b, b) (["$defs", "definitions"].flatMap fun container =>
        recordEntries context ("/" ++ container) [container]
          ((context.document.object? container).getD [])) := by
    simp only [fun container => convertTargets_eq (s := s) b context ("/" ++ container) [container],
      List.flatMap_cons, convertAll_append]
    rfl
  have hentries : entries .jsonSchema s.options context = rootEntries s.options context ++ _ := rfl
  rw [hentries, convertAll_append, outcome_bind, outcome_rootEntries, ← outcome_bind, ← hdefs]
  unfold convertSchema
  by_cases hrecord : isRecord context.document
  · simp only [if_pos hrecord, bind_assoc, pure_bind]
    rfl
  · simp only [if_neg hrecord, pure_bind]

/-! ## The conversion of entries -/

variable {i j : Nat × Nat} {es : List Entry} {t : Progress} {f : Failure}

theorem convertEntry_approximates (h : i ≤ j) (e : Entry) :
    Approximates endless (convertEntry s i e) (convertEntry s j e) :=
  defineOnce_approximates h.1 (fieldWithin_approximates h) [] e.target e.base

theorem convertAll_approximates (h : i ≤ j) (es : List Entry) :
    Approximates endless (convertAll s i es) (convertAll s j es) :=
  (Approximates.mapM fun e _ => convertEntry_approximates h e).bind fun _ => .refl _

theorem moves_convertEntry (i : Nat × Nat) (e : Entry) :
    Moves s.options s.resolver.loader (convertEntry s i e) :=
  moves_defineOnce (s := s.within i.1) (moves_fieldWithin i) [] e.target e.base

theorem fails_convertAll_iff :
    Fails (convertAll s i es) t f ↔ Fails (es.mapM (convertEntry s i)) t f :=
  fails_bind_pure_iff

end Schema

namespace Import

open Schema

/-- The setting of an import; the bounds are given apart from it. -/
def setting (o : ImportOptions) (loader : Loader) (base : Path) : Setting := ⟨o, ⟨base, loader⟩, 0⟩

/-- The entries of an import. -/
def entriesOf (o : ImportOptions) (context : ReferenceContext) : List Entry :=
  entries (o.kind.getD (.ofDocument context.document)) o context

variable {o : ImportOptions} {loader : Loader} {base : Path} {context : ReferenceContext}
  {bound : Nat} {f : Failure}

theorem unsupportedRoot_of_infer {d : Document} (h : Inference.infer o d = .error f) :
    ∃ found, f = .unsupportedRoot found := by
  unfold Inference.infer at h
  cases hsamples : Inference.samplesOf d with
  | ok samples =>
    rw [hsamples] at h
    cases h
  | error e =>
    rw [hsamples] at h
    cases h
    unfold Inference.samplesOf at hsamples
    split at hsamples
    · cases hsamples
    · cases hsamples
      exact ⟨_, rfl⟩
    · obtain ⟨item, -, hitem⟩ := exists_of_mapM_error hsamples
      split at hitem
      · cases hitem
      · cases hitem
        exact ⟨_, rfl⟩
    · cases hsamples
      exact ⟨_, rfl⟩

theorem converted_congr {convert convert' : Convert Unit}
    (h : outcome convert .empty = outcome convert' .empty) :
    converted convert = converted convert' := by
  unfold converted
  change convert.run.run .empty = convert'.run.run .empty at h
  rw [h]

/-- An import converts its entries, unless the document is a sample. -/
theorem runWithin_eq :
    runWithin bound o loader base context =
      match o.kind.getD (.ofDocument context.document) with
      | .data => ⟨Inference.infer o context.document, []⟩
      | _ => converted (convertAll (setting o loader base) (bound, bound) (entriesOf o context)) := by
  unfold runWithin entriesOf
  cases o.kind.getD (.ofDocument context.document) with
  | openApi => exact congrArg converted (convertOpenApi_eq (s := setting o loader base) bound context)
  | jsonSchema =>
    exact converted_congr (outcome_convertSchema (s := setting o loader base) bound context)
  | data => rfl

theorem error_of_converted {convert : Convert Unit} :
    (converted convert).result = .error f ↔ Fails convert .empty f := by
  unfold converted Fails outcome
  rcases convert.run.run .empty with ⟨e | a, t⟩
  · simp [Except.map]
  · simp [Except.map]

theorem ok_of_converted {convert : Convert Unit} {r : ImportResult}
    (h : (converted convert).result = .ok r) :
    ∃ t, outcome convert .empty = (.ok ⟨⟩, t) ∧ r = ⟨t.definitions, t.warnings⟩ := by
  revert h
  unfold converted outcome
  rcases convert.run.run .empty with ⟨e | a, t⟩
  · intro h
    cases h
  · intro h
    cases h
    exact ⟨t, rfl, rfl⟩

/-- An import fails with its entries, unless it is one of a sample without records. -/
theorem result_eq_error_iff (hf : ∀ found, f ≠ .unsupportedRoot found) :
    (runWithin bound o loader base context).result = .error f ↔
      Fails (convertAll (setting o loader base) (bound, bound) (entriesOf o context)) .empty f := by
  rw [runWithin_eq]
  unfold entriesOf
  cases o.kind.getD (.ofDocument context.document) with
  | openApi => exact error_of_converted
  | jsonSchema => exact error_of_converted
  | data =>
    constructor
    · intro h
      obtain ⟨found, rfl⟩ := unsupportedRoot_of_infer h
      exact absurd rfl (hf found)
    · rintro ⟨⟩

end Import

end RecordDefinitions
