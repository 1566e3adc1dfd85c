import RecordDefinitions.Proofs.Import.Lookup
import RecordDefinitions.Proofs.Schema.Region

/-!
# The documents of finitely many files

References from a document lead to that document and to those in the files. A file is
looked up by its path written in the shortest way, and that is written so only once.
-/

namespace RecordDefinitions

namespace Path

/-- Steps that go up at most at their start and never stay. -/
inductive Shortest : List PathStep → Prop
  | down (names : List String) : Shortest (names.map .down)
  | up (names : List String) : Shortest (.up :: names.map .down)

theorem Shortest.walk {steps : List PathStep} (h : Shortest steps) (step : PathStep) :
    Shortest (walk steps step) := by
  cases step with
  | stay => exact h
  | down name =>
    cases h with
    | down names => simpa [Path.walk] using Shortest.down (names ++ [name])
    | up names => simpa [Path.walk] using Shortest.up (names ++ [name])
  | up =>
    cases h with
    | down names =>
      cases names with
      | nil => exact .up []
      | cons name names =>
        have hless := Shortest.down (name :: names).dropLast
        rwa [List.map_dropLast] at hless
    | up names =>
      cases names with
      | nil => exact .down []
      | cons name names =>
        have hless := Shortest.up (name :: names).dropLast
        rwa [List.map_dropLast] at hless

theorem shortest_normalize (p : Path) : Shortest p.normalize.steps := by
  have hfold (steps front : List PathStep) (h : Shortest front) :
      Shortest (steps.foldl Path.walk front) := by
    induction steps generalizing front with
    | nil => exact h
    | cons step steps ih => exact ih _ (h.walk step)
  exact hfold p.steps [] (.down [])

theorem Shortest.normalize {p : Path} (h : Shortest p.steps) : p.normalize = p := by
  have hdown (names : List String) (front : List PathStep) :
      (names.map PathStep.down).foldl Path.walk front = front ++ names.map .down := by
    induction names generalizing front with
    | nil => simp
    | cons name names ih => simp [Path.walk, ih]
  obtain ⟨absolute, steps⟩ := p
  unfold Path.normalize
  cases h with
  | down names => simp [hdown]
  | up names => simp [hdown, Path.walk]

@[simp] theorem normalize_normalize (p : Path) : p.normalize.normalize = p.normalize :=
  (shortest_normalize p).normalize

end Path

namespace Loader

/-- The documents that can be read from some files. -/
def contexts (files : List (String × String)) : List ReferenceContext :=
  files.filterMap fun (path, text) =>
    let p := (Path.ofText path).normalize
    match Source.readDocument (Format.ofPath p) text with
    | .ok d => some ⟨d, some (.ofPath p)⟩
    | .error _ => none

/-- What is read from one of the files is one of their documents. -/
theorem mem_contexts {files : List (String × String)} {base p : Path} {d : Document}
    (h : ReferenceResolver.document? ⟨base, ofList files⟩ p.normalize = .ok (some d)) :
    ⟨d, some (.ofPath p.normalize)⟩ ∈ contexts files := by
  unfold ReferenceResolver.document? at h
  cases htext : ofList files p.normalize with
  | none =>
    simp only [htext] at h
    cases h
  | some text =>
    simp only [htext] at h
    unfold ofList at htext
    rw [Path.normalize_normalize] at htext
    obtain ⟨before, after, hlist, -⟩ := List.lookup_eq_some_iff.mp htext
    have hfile : (p.normalize, text) ∈ files.reverse.map fun (path, text) =>
        ((Path.ofText path).normalize, text) := by
      rw [hlist]
      exact List.mem_append_right _ List.mem_cons_self
    obtain ⟨⟨path, text'⟩, hmem, hpair⟩ := List.mem_map.mp hfile
    obtain ⟨hpath, rfl⟩ := Prod.mk.inj hpair
    refine List.mem_filterMap.mpr ⟨(path, text'), List.mem_reverse.mp hmem, ?_⟩
    simp only [hpath]
    cases hread : Source.readDocument (Format.ofPath p.normalize) text' with
    | error failure =>
      rw [hread] at h
      cases h
    | ok e =>
      rw [hread] at h
      cases h
      rfl

/-- No reference leads out of a document and the files around it. -/
theorem closed_contexts (files : List (String × String)) (base : Path)
    (context : ReferenceContext) :
    Schema.Closed ⟨base, ofList files⟩ (· ∈ context :: contexts files) := by
  intro here hhere r x hx
  obtain ⟨-, hsame | ⟨p, hdocument, hfile⟩⟩ :=
    ReferenceResolver.target_of_found (Schema.targetOf_eq_ok_iff.mp hx)
  · rwa [hsame]
  · obtain ⟨schema, ⟨d, file⟩, pointer⟩ := x
    simp only at hdocument hfile
    subst hfile
    exact List.mem_cons_of_mem _ (mem_contexts hdocument)

end Loader

end RecordDefinitions
