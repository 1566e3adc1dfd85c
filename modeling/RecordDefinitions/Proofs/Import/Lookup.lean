import RecordDefinitions.Import.Reference
import RecordDefinitions.Proofs.Outcome

/-!
# Looking up references

What a reference leads to does not depend on what was looked up before: a memory that
holds only what the files hold is never seen in an answer.
-/

namespace RecordDefinitions

/-- Everything that is remembered is what the file at the path holds. -/
def LookupMemory.Valid (loader : Loader) (m : LookupMemory) : Prop :=
  ∀ path d, m.documents.lookup path = some d →
    ∃ text, loader path = some text ∧ Source.readDocument (Format.ofPath path) text = .ok d

theorem LookupMemory.valid_empty (loader : Loader) : LookupMemory.empty.Valid loader := by
  intro path d h
  cases h

namespace ReferenceResolver

variable (resolver : ReferenceResolver)

/-- The document in a file, if there is such a file, read anew. -/
def document? (path : Path) : Except Failure (Option Document) :=
  match resolver.loader path with
  | none => .ok none
  | some text =>
    match Source.readDocument (Format.ofPath path) text with
    | .error failure => .error (failure.inFile path.text)
    | .ok d => .ok (some d)

/-- What a reference leads to from the document that it stands in, with all files
read anew. -/
def found (reference : String) (context : ReferenceContext) :
    Except Failure (Option ReferenceTarget) :=
  let (location, pointer) := cutReference reference
  if location.isEmpty then
    .ok ((Pointer.find? context.document pointer).map (⟨·, context, pointer⟩))
  else if hasScheme location then .ok none
  else
    let path := resolver.locate (String.ofList location) context
    (resolver.document? path).map fun document =>
      document.bind fun d =>
        (Pointer.find? d pointer).map (⟨·, ⟨d, some (.ofPath path)⟩, pointer⟩)

variable {resolver}

theorem document?_of_valid {m : LookupMemory} (h : m.Valid resolver.loader) {path : Path}
    {d : Document} (hd : m.documents.lookup path = some d) :
    resolver.document? path = .ok (some d) := by
  obtain ⟨text, htext, hread⟩ := h path d hd
  simp only [document?, htext, hread]

theorem outcome_load {m : LookupMemory} (h : m.Valid resolver.loader) (path : Path) :
    (outcome (resolver.load path) m).1 = resolver.document? path ∧
      (outcome (resolver.load path) m).2.Valid resolver.loader := by
  unfold load
  rw [outcome_bind, outcome_get]
  cases hknown : m.documents.lookup path with
  | some d =>
    simp only [hknown]
    exact ⟨(document?_of_valid h hknown).symm, h⟩
  | none =>
    simp only [hknown]
    rw [outcome_bind, outcome_modify]
    unfold document?
    cases hloader : resolver.loader path with
    | none => exact ⟨rfl, h⟩
    | some text =>
      simp only
      cases hread : Source.readDocument (Format.ofPath path) text with
      | error failure => exact ⟨rfl, h⟩
      | ok d =>
        refine ⟨rfl, ?_⟩
        intro other e he
        change List.lookup other ((path, d) :: m.documents) = some e at he
        rw [List.lookup_cons] at he
        by_cases hother : other = path
        · subst hother
          simp only [beq_self_eq_true, Option.some.injEq] at he
          subst he
          exact ⟨text, hloader, hread⟩
        · simp only [beq_eq_false_iff_ne.mpr hother] at he
          exact h other e he

theorem outcome_resolve {m : LookupMemory} (h : m.Valid resolver.loader) (reference : String)
    (context : ReferenceContext) :
    (outcome (resolver.resolve reference context) m).1 = resolver.found reference context ∧
      (outcome (resolver.resolve reference context) m).2.Valid resolver.loader := by
  unfold resolve found
  generalize cutReference reference = cut
  obtain ⟨location, pointer⟩ := cut
  simp only
  by_cases hempty : location.isEmpty
  · rw [if_pos hempty, if_pos hempty]
    exact ⟨rfl, h⟩
  · rw [if_neg hempty, if_neg hempty]
    by_cases hscheme : hasScheme location
    · rw [if_pos hscheme, if_pos hscheme]
      exact ⟨rfl, h⟩
    · rw [if_neg hscheme, if_neg hscheme]
      have hload := outcome_load h (resolver.locate (String.ofList location) context)
      rw [outcome_bind]
      generalize outcome (resolver.load _) m = o at hload ⊢
      obtain ⟨value, rest⟩ := o
      obtain ⟨hvalue, hrest⟩ := hload
      simp only at hvalue hrest
      rw [← hvalue]
      rcases value with e | _ | d
      · exact ⟨rfl, hrest⟩
      · exact ⟨rfl, hrest⟩
      · exact ⟨rfl, hrest⟩

/-- A text that is no document fails as such. -/
theorem malformed_of_readDocument {format : Format} {text : String} {e : Failure}
    (h : Source.readDocument format text = .error e) :
    ∃ fault, e = .malformed (.document format fault) := by
  cases format with
  | json =>
    simp only [Source.readDocument] at h
    cases hread : Json.read text with
    | error fault =>
      rw [hread] at h
      cases h
      exact ⟨_, rfl⟩
    | ok d =>
      rw [hread] at h
      cases h
  | yaml =>
    simp only [Source.readDocument] at h
    cases hread : Yaml.read text with
    | error fault =>
      rw [hread] at h
      cases h
      exact ⟨_, rfl⟩
    | ok d =>
      rw [hread] at h
      cases h

/-- The only failure of a lookup is a file that is no document. -/
theorem inFile_of_document?_error {path : Path} {e : Failure}
    (h : resolver.document? path = .error e) :
    ∃ cause, e = .malformed (.inFile path.text cause) := by
  unfold document? at h
  split at h
  · cases h
  · split at h
    · rename_i failure hread
      obtain ⟨fault, rfl⟩ := malformed_of_readDocument hread
      cases h
      exact ⟨_, rfl⟩
    · cases h

theorem inFile_of_found_error {reference : String} {context : ReferenceContext} {e : Failure}
    (h : resolver.found reference context = .error e) :
    ∃ path cause, e = .malformed (.inFile path cause) := by
  unfold found at h
  simp only at h
  split at h
  · cases h
  · split at h
    · cases h
    · cases hd : resolver.document?
          (resolver.locate (String.ofList (cutReference reference).1) context) with
      | error e' =>
        rw [hd] at h
        cases h
        obtain ⟨cause, hcause⟩ := inFile_of_document?_error hd
        exact ⟨_, cause, hcause⟩
      | ok d =>
        rw [hd] at h
        cases h

/-- A target is what its pointer leads to in the document of the reference, or in that
of a file whose path is written in the shortest way. -/
theorem target_of_found {reference : String} {context : ReferenceContext} {t : ReferenceTarget}
    (h : resolver.found reference context = .ok (some t)) :
    Pointer.find? t.context.document t.pointer = some t.schema ∧
      (t.context = context ∨ ∃ p : Path,
        resolver.document? p.normalize = .ok (some t.context.document) ∧
          t.context.file = some (.ofPath p.normalize)) := by
  unfold found at h
  simp only at h
  split at h
  · simp only [Except.ok.injEq, Option.map_eq_some_iff] at h
    obtain ⟨schema, hschema, rfl⟩ := h
    exact ⟨hschema, Or.inl rfl⟩
  · split at h
    · cases h
    · unfold locate at h
      simp only at h
      generalize (if (Path.ofText _).absolute = true then _ else _) = p at h
      cases hd : resolver.document? p.normalize with
      | error e =>
        rw [hd] at h
        cases h
      | ok document =>
        rw [hd] at h
        simp only [Except.map, Except.ok.injEq, Option.bind_eq_some_iff,
          Option.map_eq_some_iff] at h
        obtain ⟨d, rfl, schema, hschema, rfl⟩ := h
        exact ⟨hschema, Or.inr ⟨p, hd, rfl⟩⟩

end ReferenceResolver

end RecordDefinitions
