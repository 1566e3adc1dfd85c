import RecordDefinitions.Proofs.Import.Whereabouts

/-!
# Files are read once

A resolver follows one reference after the other and keeps its memory, also after a miss or a
failure. The answers do not show this: each is the one of a resolver that has followed nothing
yet. The loader does show it, since it is not asked again for a file that holds a document.
-/

namespace RecordDefinitions

namespace ReferenceResolver

/-- The file at a path is there and is a document. -/
def Holds (resolver : ReferenceResolver) (path : Path) : Prop :=
  ∃ d, resolver.document? path = .ok (some d)

/-- The answers to a row of references, each with the document that it stands in. What one of
them leaves in the memory, with or without a target, is there for the next one. -/
def answers (resolver : ReferenceResolver) :
    List (String × ReferenceContext) → LookupMemory → List (Except Failure (Option ReferenceTarget))
  | [], _ => []
  | call :: calls, m =>
    let (answer, rest) := outcome (resolver.resolve call.1 call.2) m
    answer :: resolver.answers calls rest

/-- The memory after a row of references. -/
def memoryAfter (resolver : ReferenceResolver) (calls : List (String × ReferenceContext))
    (m : LookupMemory) : LookupMemory :=
  calls.foldl (fun m call => (outcome (resolver.resolve call.1 call.2) m).2) m

/-- The answer of a resolver that has followed no reference before. -/
def firstAnswer (resolver : ReferenceResolver) (call : String × ReferenceContext) :
    Except Failure (Option ReferenceTarget) :=
  (outcome (resolver.resolve call.1 call.2) .empty).1

end ReferenceResolver

/-- A memory that tells the truth and knows every document that was asked for. So none of them
was asked for twice. -/
structure LookupMemory.Sparing (resolver : ReferenceResolver) (m : LookupMemory) : Prop where
  valid : m.Valid resolver.loader
  known : ∀ path ∈ m.asked, resolver.Holds path → (m.documents.lookup path).isSome
  once : ∀ path, resolver.Holds path → m.asked.count path ≤ 1

namespace ReferenceResolver

variable {resolver : ReferenceResolver} {m : LookupMemory}

/-! ## One file -/

theorem memory_load_of_known {path : Path} (h : (m.documents.lookup path).isSome) :
    (outcome (resolver.load path) m).2 = m := by
  obtain ⟨d, hd⟩ := Option.isSome_iff_exists.mp h
  unfold load
  rw [outcome_bind, outcome_get]
  simp only [hd]
  rfl

theorem memory_load_of_holds {path : Path} {d : Document} (hnew : m.documents.lookup path = none)
    (h : resolver.document? path = .ok (some d)) :
    (outcome (resolver.load path) m).2 = ⟨(path, d) :: m.documents, path :: m.asked⟩ := by
  obtain ⟨text, htext, hread⟩ := document?_eq_some_iff.mp h
  unfold load
  rw [outcome_bind, outcome_get]
  simp only [hnew]
  rw [outcome_bind, outcome_modify, htext]
  simp only [hread]
  rfl

theorem memory_load_of_not_holds {path : Path} (hnew : m.documents.lookup path = none)
    (h : ¬ resolver.Holds path) :
    (outcome (resolver.load path) m).2 = ⟨m.documents, path :: m.asked⟩ := by
  unfold load
  rw [outcome_bind, outcome_get]
  simp only [hnew]
  rw [outcome_bind, outcome_modify]
  cases htext : resolver.loader path with
  | none => rfl
  | some text =>
    cases hread : Source.readDocument (Format.ofPath path) text with
    | error failure =>
      simp only [hread]
      rfl
    | ok d => exact absurd ⟨d, document?_eq_some_iff.mpr ⟨text, htext, hread⟩⟩ h

/-! ## What a memory keeps -/

theorem sparing_empty (resolver : ReferenceResolver) : LookupMemory.empty.Sparing resolver where
  valid := LookupMemory.valid_empty resolver.loader
  known := by
    intro path hasked
    cases hasked
  once path _ := Nat.zero_le _

theorem sparing_load (h : m.Sparing resolver) (path : Path) :
    (outcome (resolver.load path) m).2.Sparing resolver := by
  have hvalid := (outcome_load h.valid path).2
  cases hknown : m.documents.lookup path with
  | some d => rwa [memory_load_of_known (by rw [hknown]; rfl)]
  | none =>
    by_cases hholds : resolver.Holds path
    · -- The document would be known if it had been asked for before.
      have hnew : path ∉ m.asked := by
        intro hasked
        have hsome := h.known path hasked hholds
        rw [hknown] at hsome
        cases hsome
      obtain ⟨d, hd⟩ := hholds
      rw [memory_load_of_holds hknown hd] at hvalid ⊢
      refine ⟨hvalid, fun other hasked hother => ?_, fun other hother => ?_⟩
      · by_cases hsame : other = path
        · simp [hsame]
        · have hrest := h.known other (List.mem_of_ne_of_mem hsame hasked) hother
          simpa [List.lookup_cons, beq_eq_false_iff_ne.mpr hsame] using hrest
      · by_cases hsame : path = other
        · subst hsame
          simp [List.count_eq_zero_of_not_mem hnew]
        · simpa [List.count_cons, hsame] using h.once other hother
    · rw [memory_load_of_not_holds hknown hholds] at hvalid ⊢
      have hdiffer {other : Path} (hother : resolver.Holds other) : other ≠ path := by
        rintro rfl
        exact hholds hother
      refine ⟨hvalid, fun other hasked hother => ?_, fun other hother => ?_⟩
      · exact h.known other (List.mem_of_ne_of_mem (hdiffer hother) hasked) hother
      · simpa [List.count_cons, (hdiffer hother).symm] using h.once other hother

theorem asked_load_suffix (path : Path) : m.asked <:+ (outcome (resolver.load path) m).2.asked := by
  rw [asked_load]
  split
  · exact List.suffix_refl _
  · exact List.suffix_cons path m.asked

/-! ## One reference -/

/-- A reference leaves the memory as it is, or as one file leaves it. -/
theorem memory_resolve (resolver : ReferenceResolver) (m : LookupMemory) (reference : String)
    (context : ReferenceContext) :
    (outcome (resolver.resolve reference context) m).2 = m ∨
      ∃ path, (outcome (resolver.resolve reference context) m).2 =
        (outcome (resolver.load path) m).2 := by
  unfold resolve
  generalize cutReference reference = cut
  obtain ⟨location, pointer⟩ := cut
  simp only
  by_cases hempty : location.isEmpty
  · rw [if_pos hempty]
    exact Or.inl rfl
  · rw [if_neg hempty]
    by_cases hscheme : hasScheme location
    · rw [if_pos hscheme]
      exact Or.inl rfl
    · rw [if_neg hscheme]
      refine Or.inr ⟨resolver.locate (String.ofList location) context, ?_⟩
      rw [outcome_bind]
      rcases outcome (resolver.load _) m with ⟨_ | _ | d, rest⟩
      · rfl
      · rfl
      · rfl

theorem sparing_resolve (h : m.Sparing resolver) (reference : String) (context : ReferenceContext) :
    (outcome (resolver.resolve reference context) m).2.Sparing resolver := by
  rcases memory_resolve resolver m reference context with hsame | ⟨path, hload⟩
  · rwa [hsame]
  · rw [hload]
    exact sparing_load h path

theorem asked_resolve_suffix (reference : String) (context : ReferenceContext) :
    m.asked <:+ (outcome (resolver.resolve reference context) m).2.asked := by
  rcases memory_resolve resolver m reference context with hsame | ⟨path, hload⟩
  · exact ⟨[], congrArg LookupMemory.asked hsame.symm⟩
  · rw [hload]
    exact asked_load_suffix path

/-! ## A row of references -/

theorem answers_eq_of_valid (hm : m.Valid resolver.loader)
    (calls : List (String × ReferenceContext)) :
    resolver.answers calls m = calls.map fun call => resolver.found call.1 call.2 := by
  induction calls generalizing m with
  | nil => rfl
  | cons call calls ih =>
    obtain ⟨hanswer, hrest⟩ := outcome_resolve hm call.1 call.2
    rw [List.map_cons, ← hanswer, ← ih hrest]
    rfl

theorem firstAnswer_eq (call : String × ReferenceContext) :
    resolver.firstAnswer call = resolver.found call.1 call.2 :=
  (outcome_resolve (LookupMemory.valid_empty resolver.loader) call.1 call.2).1

theorem sparing_memoryAfter (hm : m.Sparing resolver) (calls : List (String × ReferenceContext)) :
    (resolver.memoryAfter calls m).Sparing resolver := by
  induction calls generalizing m with
  | nil => exact hm
  | cons call calls ih => exact ih (sparing_resolve hm call.1 call.2)

theorem asked_memoryAfter_suffix (resolver : ReferenceResolver) (m : LookupMemory)
    (calls : List (String × ReferenceContext)) :
    m.asked <:+ (resolver.memoryAfter calls m).asked := by
  induction calls generalizing m with
  | nil => exact List.suffix_refl _
  | cons call calls ih => exact (asked_resolve_suffix call.1 call.2).trans (ih _)

/-- In a row of references each is answered as by a new resolver. Once a document has been
asked for, the loader is not asked for it again, so it is read once at most. -/
theorem answers_anew_and_reads_once (resolver : ReferenceResolver)
    (calls : List (String × ReferenceContext)) :
    resolver.answers calls .empty = calls.map resolver.firstAnswer ∧
      (∀ path, resolver.Holds path → (resolver.memoryAfter calls .empty).asked.count path ≤ 1) ∧
      ∀ before after, calls = before ++ after →
        ∃ since, (resolver.memoryAfter calls .empty).asked =
            since ++ (resolver.memoryAfter before .empty).asked ∧
          ∀ path ∈ (resolver.memoryAfter before .empty).asked, resolver.Holds path →
            path ∉ since := by
  have honce := (sparing_memoryAfter (sparing_empty resolver) calls).once
  refine ⟨?_, honce, ?_⟩
  · rw [answers_eq_of_valid (LookupMemory.valid_empty resolver.loader)]
    exact List.map_congr_left fun call _ => (firstAnswer_eq call).symm
  · rintro before after rfl
    have hafter : resolver.memoryAfter (before ++ after) .empty =
        resolver.memoryAfter after (resolver.memoryAfter before .empty) := List.foldl_append
    obtain ⟨since, hsince⟩ :=
      asked_memoryAfter_suffix resolver (resolver.memoryAfter before .empty) after
    rw [← hafter] at hsince
    refine ⟨since, hsince.symm, fun path hasked hholds hagain => ?_⟩
    have hcount := honce path hholds
    rw [← hsince, List.count_append] at hcount
    have hfirst := List.count_pos_iff.mpr hasked
    have hsecond := List.count_pos_iff.mpr hagain
    omega

/-- A file that holds a document, and one whose text breaks off. -/
def drawer : ReferenceResolver :=
  ⟨.here, .ofList [("prices.json", "[]"), ("torn.json", "[")]⟩

/-- A document with references that comes from no file. -/
def draft : ReferenceContext := ⟨.object [], none⟩

/-- The path of the document. -/
def prices : Path := ⟨false, [.down "prices.json"]⟩

theorem answers_anew_and_reads_once_drawer :
    drawer.Holds prices ∧ prices ∈ (drawer.memoryAfter [("prices.json", draft)] .empty).asked ∧
      ∃ since, (drawer.memoryAfter ([("prices.json", draft)] ++ [("lost.json", draft),
          ("torn.json", draft), ("./prices.json#/0", draft)]) .empty).asked =
          since ++ (drawer.memoryAfter [("prices.json", draft)] .empty).asked ∧
        prices ∉ since := by
  have hread : Source.readDocument (Format.ofPath prices) "[]" = .ok (.array []) := by
    have hformat : Format.ofPath prices = .json := by decide
    have hjson : Json.read "[]" = .ok (.array []) :=
      toOption_eq_some_iff.mp (by decide +kernel)
    simp [Source.readDocument, hformat, hjson, Except.map, Except.mapError, Document.merged,
      Document.mergedItems]
  have hholds : drawer.Holds prices :=
    ⟨_, document?_eq_some_iff.mpr ⟨_, by decide +kernel, hread⟩⟩
  have hasked : prices ∈ (drawer.memoryAfter [("prices.json", draft)] .empty).asked := by
    decide +kernel
  obtain ⟨-, -, hsplit⟩ := answers_anew_and_reads_once drawer ([("prices.json", draft)] ++
    [("lost.json", draft), ("torn.json", draft), ("./prices.json#/0", draft)])
  obtain ⟨since, hsince, hnever⟩ := hsplit _ _ rfl
  exact ⟨hholds, hasked, since, hsince, hnever prices hasked hholds⟩

end ReferenceResolver

end RecordDefinitions
