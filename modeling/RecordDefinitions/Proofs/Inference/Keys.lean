import RecordDefinitions.Proofs.Inference.Soundness

/-!
# The keys that fields come from

Inference comes to the objects of a document through keys and lists. Each of them is unified
into some definition, and nothing else is. So the fields of the inferred definitions, taken
together, are the keys of these objects.
-/

namespace RecordDefinitions.Inference

/-- A document is found in another one: under keys of objects and in lists. -/
inductive Inside (d : Document) : Document → Prop
  | here : Inside d d
  | member {s : Sample} {key : String} {v : Document} :
    valueOf? key s = some v → Inside d v → Inside d (.object s)
  | item {items : List Document} {v : Document} :
    v ∈ items → Inside d v → Inside d (.array items)

variable {d : Document} {origins : Origins} {block : List (String × Declaration)}

theorem Inside.trans {v w : Document} (h : Inside d v) (h' : Inside v w) : Inside d w := by
  induction h' with
  | here => exact h
  | member hvalue _ ih => exact .member hvalue ih
  | item hitem _ ih => exact .item hitem ih

theorem Inside.ne_null {s : Sample} {v : Document} (h : Inside (.object s) v) : v ≠ .null := by
  rintro rfl
  cases h

/-! ## What is unified is found in the document -/

theorem Place.exists_inside {values inner : List Document} {type place : TypeExpr}
    (h : Place values type inner place) : ∀ v ∈ inner, ∃ w ∈ values, Inside v w := by
  induction h with
  | here => exact fun v hv => ⟨v, hv, .here⟩
  | inside _ _ ih =>
    intro v hv
    obtain ⟨-, items, hitems, hitem⟩ := mem_itemsOf.mp hv
    obtain ⟨w, hw, hinside⟩ := ih _ hitems
    exact ⟨w, hw, (Inside.item hitem .here).trans hinside⟩

theorem NamedIn.exists_inside {names : List String} {samples : List Sample}
    {fields : List (String × FieldDeclaration)} {origin : String × List Sample}
    (h : NamedIn names samples fields origin) :
    ∀ s ∈ origin.2, ∃ s' ∈ samples, Inside (.object s) (.object s') := by
  obtain ⟨f, -, type, -, inner, place, hplace, -, hobjects⟩ := h
  intro s hs
  rw [hobjects] at hs
  obtain ⟨w, hw, hinside⟩ := hplace.exists_inside _ (mem_objectsOf.mp hs)
  obtain ⟨-, s', hs', hvalue⟩ := mem_valuesAt.mp hw
  exact ⟨s', hs', .member hvalue hinside⟩

theorem Unified.exists_inside {root : String × List Sample} {origin : String × List Sample}
    (h : Unified block (· = root) origin) :
    ∀ s ∈ origin.2, ∃ s' ∈ root.2, Inside (.object s) (.object s') := by
  induction h with
  | named hroot =>
    subst hroot
    exact fun s hs => ⟨s, hs, .here⟩
  | inner _ _ hin ih =>
    intro s hs
    obtain ⟨owner, howner, hinside⟩ := hin.exists_inside s hs
    obtain ⟨s', hs', hinside'⟩ := ih owner howner
    exact ⟨s', hs', hinside.trans hinside'⟩

theorem HoldsSamples.inside {samples : List Sample} (h : HoldsSamples d samples) :
    ∀ s ∈ samples, Inside (.object s) d := by
  cases h with
  | one s' => exact List.forall_mem_singleton.mpr .here
  | list _ => exact fun s hs => .item (List.mem_map_of_mem hs) .here

/-! ## What is found in the document is unified -/

/-- Every object that is found in the document is found in a sample. -/
theorem HoldsSamples.exists_inside {samples : List Sample} (h : HoldsSamples d samples)
    {s : Sample} (hs : Inside (.object s) d) :
    ∃ s' ∈ samples, Inside (.object s) (.object s') := by
  cases h with
  | one s' => exact ⟨s', List.mem_cons_self, hs⟩
  | list _ =>
    cases hs with
    | item hitem hin =>
      obtain ⟨s', hs', rfl⟩ := List.mem_map.mp hitem
      exact ⟨s', hs', hin⟩

/-- An object among the values at a place belongs to the definition that is named there. -/
theorem Typed.exists_origin {values : List Document} {type : TypeExpr}
    (h : Typed origins values type) {s : Sample} (hs : .object s ∈ values) :
    ∃ origin ∈ origins, s ∈ origin.2 := by
  have hobject : kindOf? (.object s) = some .object := rfl
  obtain ⟨member, hmember, hkind⟩ := h.exists_member hs hobject
  cases member with
  | definition name => exact ⟨_, h.definition hmember, mem_objectsOf.mpr hs⟩
  | _ => cases hkind

/-- What an object of an origin holds under a key is among the values of a field. -/
theorem ComesFrom.exists_typed {origin : String × List Sample} {p : String × Declaration}
    (h : ComesFrom d origins origin p) {s : Sample} (hs : s ∈ origin.2) {key : String}
    {v : Document} (hvalue : valueOf? key s = some v) (hnull : v ≠ .null) :
    ∃ values type, Typed origins values type ∧ v ∈ values := by
  have hkey : key ∈ p.2.fields.names := by
    rw [h.describes.keys, mem_distinct]
    obtain ⟨m, hm, rfl, -⟩ := exists_of_valueOf? hvalue
    exact List.mem_flatMap_of_mem hs (List.mem_map_of_mem (f := nameOf) hm)
  obtain ⟨f, hf, rfl⟩ := List.mem_map.mp hkey
  obtain ⟨type, -, htype⟩ := h.describes.type f hf
  exact ⟨_, type, htype, mem_valuesAt.mpr ⟨hnull, s, hs, hvalue⟩⟩

section Origins

variable (h : List.Forall₂ (ComesFrom d origins) origins block) {s : Sample}
include h

theorem exists_origin_of_typed {w : Document} (hinside : Inside (.object s) w)
    {values : List Document} {type : TypeExpr} (htype : Typed origins values type)
    (hw : w ∈ values) : ∃ origin ∈ origins, s ∈ origin.2 := by
  induction hinside generalizing values type with
  | here => exact htype.exists_origin hw
  | member hvalue hin ih =>
    obtain ⟨origin, horigin, hs⟩ := htype.exists_origin hw
    obtain ⟨p, -, hcomes⟩ := exists_of_forall₂_left h origin horigin
    obtain ⟨values, type, htype, hv⟩ := hcomes.exists_typed hs hvalue hin.ne_null
    exact ih htype hv
  | @item items _ hitem hin ih =>
    have hlist : kindOf? (.array items) = some .list := rfl
    obtain ⟨member, hmember, hkind⟩ := htype.exists_member hw hlist
    cases member with
    | list element =>
      exact ih (htype.item hmember) (mem_itemsOf.mpr ⟨hin.ne_null, _, hw, hitem⟩)
    | _ => cases hkind

theorem exists_origin_of_inside {s' : Sample} {origin : String × List Sample}
    (horigin : origin ∈ origins) (hs' : s' ∈ origin.2)
    (hinside : Inside (.object s) (.object s')) : ∃ origin ∈ origins, s ∈ origin.2 := by
  cases hinside with
  | here => exact ⟨origin, horigin, hs'⟩
  | member hvalue hin =>
    obtain ⟨p, -, hcomes⟩ := exists_of_forall₂_left h origin horigin
    obtain ⟨values, type, htype, hv⟩ := hcomes.exists_typed hs' hvalue hin.ne_null
    exact exists_origin_of_typed h hin htype hv

end Origins

/-- The fields of all inferred definitions are the keys of all objects that are found in the
document. -/
theorem exists_field_iff_of_infer {o : ImportOptions} {result : ImportResult}
    (h : infer o d = .ok result) (key : String) :
    (∃ p ∈ result.definitions.toList, key ∈ p.2.fields.names) ↔
      ∃ s, Inside (.object s) d ∧ key ∈ namesOf s := by
  obtain ⟨samples, origins, hsamples, hexplains⟩ := exists_origins_of_infer h
  constructor
  · rintro ⟨p, hp, hkey⟩
    obtain ⟨origin, horigin, hcomes⟩ := exists_of_forall₂_left hexplains.comesFrom.flip p hp
    rw [hcomes.describes.keys, mem_distinct] at hkey
    obtain ⟨s, hs, hkey⟩ := List.mem_flatMap.mp hkey
    obtain ⟨s', hs', hinside⟩ := (hexplains.unified origin horigin).exists_inside s hs
    exact ⟨s, hinside.trans (hsamples.inside s' hs'), hkey⟩
  · rintro ⟨s, hinside, hkey⟩
    obtain ⟨s', hs', hin⟩ := hsamples.exists_inside hinside
    obtain ⟨origin, horigin, hs⟩ :=
      exists_origin_of_inside hexplains.comesFrom List.mem_cons_self hs' hin
    obtain ⟨p, hp, hcomes⟩ := exists_of_forall₂_left hexplains.comesFrom origin horigin
    refine ⟨p, hp, ?_⟩
    rw [hcomes.describes.keys, mem_distinct]
    exact List.mem_flatMap_of_mem hs hkey

/-- No inferred definition has an empty name, whatever the namespace is. -/
theorem name_ne_empty_of_infer {o : ImportOptions} {result : ImportResult}
    (h : infer o d = .ok result) : ∀ p ∈ result.definitions.toList, p.1 ≠ "" := by
  obtain ⟨_, declared, inner, -, hfields, hlist⟩ := exists_listed_of_infer h
  rw [hlist, List.forall_mem_cons]
  constructor
  · exact Naming.qualified_ne_empty (Naming.isTypeName_typeName o.rootName rfl)
  · intro p hp
    obtain ⟨used, key, hname⟩ := hfields.isNameFor p hp
    rw [hname]
    exact Naming.uniqueName_ne_empty (Naming.isTypeName_typeName key rfl) used

end RecordDefinitions.Inference
