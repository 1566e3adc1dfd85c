import RecordDefinitions.Proofs.Document.Parts
import RecordDefinitions.Proofs.Import.Lookup

/-!
# Where references are looked up

A reference names a file by a location, which is seen from some directory. For the
references in a file it is the directory of that file, whichever directory there is for
documents that come from no file.
-/

namespace RecordDefinitions

/-- The path of a location that is seen from a directory, written in the shortest way. -/
def Path.located (directory : Path) (location : String) : Path :=
  (directory.join (.ofText location)).normalize

namespace Path

theorem foldl_moving {α : Type} {f : α → PathStep → α} (hstay : ∀ a, f a .stay = a)
    (steps : List PathStep) (a : α) : (moving steps).foldl f a = steps.foldl f a := by
  induction steps generalizing a with
  | nil => rfl
  | cons step steps ih =>
    cases step with
    | stay =>
      rw [List.foldl_cons, hstay]
      exact ih a
    | up => exact ih _
    | down name => exact ih _

/-- Where steps lead does not depend on those that stay. -/
theorem foldl_settled {α : Type} {f : α → PathStep → α} (hstay : ∀ a, f a .stay = a)
    (absolute : Bool) (steps : List PathStep) (a : α) :
    (settled absolute steps).foldl f a = steps.foldl f a := by
  unfold settled
  split
  · split
    · rw [foldl_moving hstay, List.foldl_cons, hstay]
    · rw [List.foldl_cons, List.foldl_cons, foldl_moving hstay]
  · exact foldl_moving hstay _ a

/-- A relative location is walked to from a directory in its shortest way. -/
theorem located_eq {location : String} (h : (Path.ofText location).absolute = false)
    (directory : Path) :
    directory.located location =
      ⟨directory.absolute, (Path.ofText location).steps.foldl walk directory.normalize.steps⟩ := by
  unfold located join normalize
  rw [h, if_neg Bool.false_ne_true, foldl_settled (f := walk) (fun _ => rfl), List.foldl_append]

theorem located_of_normalize {directory directory' : Path}
    (h : directory.normalize = directory'.normalize) (location : String) :
    directory.located location = directory'.located location := by
  cases habsolute : (Path.ofText location).absolute with
  | true =>
    unfold located join
    rw [habsolute, if_pos rfl, if_pos rfl]
  | false =>
    have hroot : directory.normalize.absolute = directory'.normalize.absolute := by rw [h]
    change directory.absolute = directory'.absolute at hroot
    rw [located_eq habsolute, located_eq habsolute, h, hroot]

end Path

namespace ReferenceResolver

/-- The location of the file that a reference names. -/
def location? (reference : String) : Option String :=
  let location := (cutReference reference).1
  if location.isEmpty || hasScheme location then none else some (String.ofList location)

end ReferenceResolver

/-- The locations of the files that references in a document name. -/
def Document.locations (d : Document) : List String :=
  d.parts.filterMap fun part => (part.string? "$ref").bind ReferenceResolver.location?

/-- The document comes from a file in a directory. -/
def ReferenceContext.In (context : ReferenceContext) (own : Path) : Prop :=
  (context.file.bind fun f => f.path.parent?) = some own

/-! ## One reference -/

namespace ReferenceResolver

variable {resolver resolver' : ReferenceResolver} {context : ReferenceContext} {own : Path}
  {reference location : String}

theorem locate_eq (h : context.In own) (location : String) :
    resolver.locate location context = own.located location := by
  unfold locate Path.located
  rw [h, Option.getD_some]
  by_cases habsolute : (Path.ofText location).absolute
  · simp only [Path.join, if_pos habsolute]
  · simp only [if_neg habsolute]

/-- A reference from a file is followed without any directory but that of the file. -/
theorem resolve_eq (h : context.In own) (reference : String) :
    resolver.resolve reference context =
      match location? reference with
      | none =>
        return if (cutReference reference).1.isEmpty then
          (Pointer.find? context.document (cutReference reference).2).map
            (⟨·, context, (cutReference reference).2⟩)
        else none
      | some location => do
        let document ← resolver.load (own.located location)
        return document.bind fun d => (Pointer.find? d (cutReference reference).2).map
          (⟨·, ⟨d, some (.ofPath (own.located location))⟩, (cutReference reference).2⟩) := by
  unfold resolve location?
  simp only [locate_eq h]
  by_cases hempty : (cutReference reference).1.isEmpty
  · simp only [hempty, Bool.true_or, if_true]
  · by_cases hscheme : hasScheme (cutReference reference).1
    · simp only [hempty, hscheme, Bool.or_true, if_true, Bool.false_eq_true, if_false]
    · simp only [hempty, hscheme, Bool.or_self, Bool.false_eq_true, if_false]
      congr 1
      funext document
      cases document with
      | none => rfl
      | some d => rfl

theorem resolve_congr (hloader : resolver.loader = resolver'.loader) (h : context.In own)
    (reference : String) :
    resolver.resolve reference context = resolver'.resolve reference context := by
  have hload (path : Path) : resolver.load path = resolver'.load path := by
    unfold load
    rw [hloader]
  simp only [resolve_eq h, hload]

/-- A file is asked for unless its document is known. -/
theorem asked_load (resolver : ReferenceResolver) (m : LookupMemory) (path : Path) :
    (outcome (resolver.load path) m).2.asked =
      if (m.documents.lookup path).isSome then m.asked else path :: m.asked := by
  unfold load
  rw [outcome_bind, outcome_get]
  cases hknown : m.documents.lookup path with
  | some d =>
    simp only [hknown]
    rfl
  | none =>
    simp only [hknown]
    rw [outcome_bind, outcome_modify]
    cases resolver.loader path with
    | none => rfl
    | some text =>
      cases hread : Source.readDocument (Format.ofPath path) text with
      | error failure =>
        simp only [hread]
        rfl
      | ok d =>
        simp only [hread]
        rfl

/-- A reference that names a file asks for it at its location from the directory of the
document, unless the document in the file is known. -/
theorem asked_resolve (resolver : ReferenceResolver) (m : LookupMemory) (h : context.In own)
    (reference : String) :
    (outcome (resolver.resolve reference context) m).2.asked =
      match location? reference with
      | none => m.asked
      | some location =>
        if (m.documents.lookup (own.located location)).isSome then m.asked
        else own.located location :: m.asked := by
  rw [resolve_eq h]
  cases location? reference with
  | none => rfl
  | some location =>
    simp only
    rw [← asked_load resolver, outcome_bind]
    rcases outcome (resolver.load (own.located location)) m with ⟨_ | _ | d, m'⟩
    · rfl
    · rfl
    · rfl

theorem document?_eq_some_iff {path : Path} {d : Document} :
    resolver.document? path = .ok (some d) ↔
      ∃ text, resolver.loader path = some text ∧
        Source.readDocument (Format.ofPath path) text = .ok d := by
  unfold document?
  cases resolver.loader path with
  | none => simp
  | some text => cases hread : Source.readDocument (Format.ofPath path) text <;> simp [hread]

/-- What a reference leads to stands in the same document, or in the file that the
reference names. -/
theorem context_of_found {x : ReferenceTarget} (h : context.In own)
    (hx : resolver.found reference context = .ok (some x)) :
    x.context = context ∨ ∃ location, location? reference = some location ∧
      resolver.document? (own.located location) = .ok (some x.context.document) ∧
        x.context.file = some (.ofPath (own.located location)) := by
  unfold found at hx
  simp only at hx
  split at hx
  · simp only [Except.ok.injEq, Option.map_eq_some_iff] at hx
    obtain ⟨schema, -, rfl⟩ := hx
    exact Or.inl rfl
  · rename_i hempty
    split at hx
    · cases hx
    · rename_i hscheme
      rw [locate_eq h] at hx
      cases hd : resolver.document? (own.located (String.ofList (cutReference reference).1)) with
      | error e =>
        rw [hd] at hx
        cases hx
      | ok document =>
        rw [hd] at hx
        simp only [Except.map, Except.ok.injEq, Option.bind_eq_some_iff,
          Option.map_eq_some_iff] at hx
        obtain ⟨d, rfl, schema, -, rfl⟩ := hx
        refine Or.inr ⟨_, ?_, hd, rfl⟩
        unfold location?
        simp [hempty, hscheme]

end ReferenceResolver

end RecordDefinitions
