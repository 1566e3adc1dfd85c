import RecordDefinitions.Proofs.Distinct
import RecordDefinitions.Proofs.Resolution.Questions

/-!
# Flattened fields in closed form

Flattening goes down a chain and replaces fields where they stand. What comes out is said
here by the chain alone: a field stands where its first declarer put it, it is the one
that the last declarer wrote, and it overrides the declarer before that.
-/

namespace RecordDefinitions

open Inference Relation

/-! ## Names -/

namespace FlatFields

variable {descends : TypeExpr.Lineage} {definition : String}

theorem names_declare {fields next : FlatFields} {own : Field}
    (h : fields.declare descends definition own = .ok next) :
    next.names = appendNew fields.names own.name := by
  unfold declare at h
  split at h
  · cases h
    exact Catalogue.names_insert fields _
  · split at h
    · cases h
      exact Catalogue.names_insert fields _
    · cases h

theorem names_declareAll {fields next : FlatFields} {owns : List Field}
    (h : owns.foldlM (declare descends definition) fields = .ok next) :
    next.names = (namesOf owns).foldl appendNew fields.names := by
  induction owns generalizing fields with
  | nil =>
    cases h
    rfl
  | cons own owns ih =>
    rw [List.foldlM_cons, bind_eq_ok_iff] at h
    obtain ⟨middle, hmiddle, hrest⟩ := h
    rw [ih hrest, names_declare hmiddle]
    rfl

/-- Own names follow those of the parent, without the ones that are there already. -/
theorem names_extend {fields next : FlatFields} {d : Definition}
    (h : fields.extend descends d = .ok next) :
    next.names = d.fields.names.foldl appendNew fields.names := by
  rw [names_declareAll h, inherit, Catalogue.names_map]
  rfl

end FlatFields

/-! ## Declarers -/

namespace Definition

/-- The names of all fields that the definitions declare, the last definition first, each name
where it first comes. -/
def fieldNames (line : List Definition) : List String :=
  distinct (line.reverse.flatMap (·.fields.names))

/-- The definitions that declare a field of that name. -/
def declarers (field : String) (line : List Definition) : List Definition :=
  line.filter (·.fields.contains field)

/-- The field of that name which the first of the definitions has when each of the others is
the parent of the one before it. The name is that of the first one. -/
def flatField? (name : String) (line : List Definition) (field : String) : Option FlatField :=
  match declarers field line with
  | [] => none
  | d :: above => (d.fields.find? field).map fun own =>
    { field := own, declaredIn := d.name, inherited := d.name ≠ name,
      overrides := above.head?.map (·.name) }

theorem fieldNames_cons (d : Definition) (line : List Definition) :
    fieldNames (d :: line) = d.fields.names.foldl appendNew (fieldNames line) := by
  simp only [fieldNames, distinct, List.reverse_cons, List.flatMap_append, List.foldl_append,
    List.flatMap_singleton]

variable {name field : String} {d : Definition} {line : List Definition}

theorem declarers_cons_of_contains (h : d.fields.contains field) :
    declarers field (d :: line) = d :: declarers field line :=
  List.filter_cons_of_pos h

theorem declarers_cons_of_not_contains (h : ¬ d.fields.contains field) :
    declarers field (d :: line) = declarers field line :=
  List.filter_cons_of_neg h

theorem exists_find?_of_declarers {above : List Definition}
    (h : declarers field line = d :: above) : d ∈ line ∧ ∃ own, d.fields.find? field = some own := by
  have hm : d ∈ declarers field line := h ▸ List.mem_cons_self
  obtain ⟨hline, hcontains⟩ := List.mem_filter.mp hm
  exact ⟨hline, Option.isSome_iff_exists.mp hcontains⟩

theorem declaredIn_flatField? :
    (flatField? name line field).map (·.declaredIn) = (declarers field line).head?.map (·.name) := by
  unfold flatField?
  cases h : declarers field line with
  | nil => rfl
  | cons d above =>
    obtain ⟨-, own, hown⟩ := exists_find?_of_declarers h
    simp only [hown, Option.map_some, List.head?_cons]

/-- Another definition that stands on the chain only inherits what its ancestors declare. -/
theorem flatField?_of_forall_ne {parent : String} (h : ∀ d ∈ line, d.name ≠ name) :
    flatField? name line field =
      (flatField? parent line field).map fun f => { f with inherited := true } := by
  unfold flatField?
  cases hd : declarers field line with
  | nil => rfl
  | cons d above =>
    obtain ⟨hm, own, hown⟩ := exists_find?_of_declarers hd
    simp only [hown, Option.map_some, h d hm, ne_eq, not_false_eq_true, decide_true]

theorem flatField?_cons (parent : String) (hd : d.name = name) (h : ∀ e ∈ line, e.name ≠ name) :
    flatField? name (d :: line) field =
      ((d.fields.find? field).map fun own =>
        ⟨own, d.name, false, (flatField? parent line field).map (·.declaredIn)⟩).or
        ((flatField? parent line field).map fun f => { f with inherited := true }) := by
  by_cases hcontains : d.fields.contains field
  · obtain ⟨own, hown⟩ := Option.isSome_iff_exists.mp hcontains
    rw [declaredIn_flatField?, flatField?, declarers_cons_of_contains hcontains]
    simp only [hown, hd, Option.map_some, Option.some_or, ne_eq, not_true_eq_false, decide_false]
  · have hnone : d.fields.find? field = none := by
      simpa [Catalogue.contains] using hcontains
    rw [hnone, Option.map_none, Option.none_or, ← flatField?_of_forall_ne h, flatField?,
      declarers_cons_of_not_contains hcontains]
    rfl

end Definition

namespace Registry

variable {r : Registry} {name : String} {ancestors : List String} {fields : FlatFields}

theorem Ascends.transGen_of_mem {ancestor : String} (h : r.Ascends name ancestors)
    (hm : ancestor ∈ ancestors) : TransGen r.IsParent name ancestor := by
  induction h with
  | root => cases hm
  | step hd hp _ ih =>
    have hparent := isParent_of_find? hd hp
    rcases List.mem_cons.mp hm with rfl | hm
    · exact .single hparent
    · exact .head hparent (ih hm)

theorem Ascends.mem_of_transGen {ancestor : String} (h : r.Ascends name ancestors)
    (ha : TransGen r.IsParent name ancestor) : ancestor ∈ ancestors := by
  induction h with
  | root hd hp =>
    obtain ⟨parent, hparent, -⟩ := TransGen.head'_iff.mp ha
    simp [IsParent, parentOf?, hd, hp] at hparent
  | step hd hp _ ih =>
    obtain ⟨parent, hparent, hrest⟩ := TransGen.head'_iff.mp ha
    obtain rfl : _ = parent := Option.some.inj ((isParent_of_find? hd hp).symm.trans hparent)
    rcases reflTransGen_iff_eq_or_transGen.mp hrest with rfl | hrest
    · exact List.mem_cons_self
    · exact List.mem_cons_of_mem _ (ih hrest)

theorem Ascends.not_mem (h : r.Ascends name ancestors) : name ∉ ancestors :=
  fun hm => (h.rooted name .refl).2 (h.transGen_of_mem hm)

/-- The names of flattened fields in order, and what stands under each. -/
theorem names_and_find?_of_flatFields (hasc : r.Ascends name ancestors)
    (h : r.flatFields name = .ok fields) :
    fields.names = Definition.fieldNames (r.line (name :: ancestors)) ∧
      ∀ field, fields.find? field = Definition.flatField? name (r.line (name :: ancestors)) field := by
  induction hasc generalizing fields with
  | @root name d hd hp =>
    rw [flatFields_root hd hp] at h
    have hline : r.line [name] = [d] := line_cons hd
    rw [hline]
    refine ⟨?_, fun field => ?_⟩
    · rw [FlatFields.names_extend h, Definition.fieldNames_cons]
      rfl
    · rw [FlatFields.find?_extend field h,
        Definition.flatField?_cons name (name_of_find? hd) (by simp)]
      rfl
  | @step name parent d rest hd hp hrest ih =>
    rw [flatFields_step hd hp hrest, bind_eq_ok_iff] at h
    obtain ⟨inherited, hinherited, hextend⟩ := h
    obtain ⟨hnames, hfind⟩ := ih hinherited
    rw [line_cons hd]
    refine ⟨?_, fun field => ?_⟩
    · rw [FlatFields.names_extend hextend, hnames, Definition.fieldNames_cons]
    · have hother : ∀ e ∈ r.line (parent :: rest), e.name ≠ name := by
        rintro e he rfl
        exact (Ascends.step hd hp hrest).not_mem (mem_of_mem_line he).2
      rw [FlatFields.find?_extend field hextend, hfind,
        Definition.flatField?_cons parent (name_of_find? hd) hother]

/-- Parents lead from the name over the ancestors to a root, and every override on the way
fits. -/
structure Flattens (r : Registry) (name : String) (ancestors : List String) : Prop where
  ascends : r.Ascends name ancestors
  fits : ∀ d ∈ r.line (name :: ancestors), r.OverridesFit d

theorem exists_flatFields_iff :
    (∃ fields, r.flatFields name = .ok fields) ↔ ∃ ancestors, r.Flattens name ancestors := by
  constructor
  · rintro ⟨fields, h⟩
    obtain ⟨names, hchain, -⟩ := bind_eq_ok_iff.mp h
    obtain ⟨ancestors, hasc, -⟩ := chain_eq_ok_iff.mp hchain
    exact ⟨ancestors, hasc, overridesFit_of_mem_line hasc h⟩
  · rintro ⟨ancestors, hflat⟩
    exact exists_flatFields_of_ascends hflat.ascends hflat.fits

theorem flatFields_eq_ok_iff :
    r.flatFields name = .ok fields ↔
      ∃ ancestors, r.Flattens name ancestors ∧
        fields.names = Definition.fieldNames (r.line (name :: ancestors)) ∧
        ∀ field, fields.find? field =
          Definition.flatField? name (r.line (name :: ancestors)) field := by
  constructor
  · intro h
    obtain ⟨ancestors, hflat⟩ := exists_flatFields_iff.mp ⟨fields, h⟩
    exact ⟨ancestors, hflat, names_and_find?_of_flatFields hflat.ascends h⟩
  · rintro ⟨ancestors, hflat, hnames, hfind⟩
    obtain ⟨flat, h⟩ := exists_flatFields_iff.mpr ⟨ancestors, hflat⟩
    obtain ⟨hnames', hfind'⟩ := names_and_find?_of_flatFields hflat.ascends h
    have hsame : flat = fields :=
      Catalogue.ext_find? (hnames'.trans hnames.symm) fun field =>
        (hfind' field).trans (hfind field).symm
    rw [h, hsame]

/-- Without a parent the flattened fields are the own ones. -/
theorem flatFields_of_root {d : Definition} (hd : r.find? name = some d) (hp : d.parent = none) :
    r.flatFields name = .ok (d.fields.map (⟨·, name, false, none⟩) fun _ => rfl) := by
  obtain ⟨fields, h⟩ := exists_flatFields_of_ascends (.root hd hp) (by
    rw [line_cons hd]
    exact List.forall_mem_cons.mpr ⟨overridesFit_of_root hp, by simp [line]⟩)
  rw [h]
  rw [flatFields_root hd hp] at h
  congr 1
  refine Catalogue.ext_find? ?_ fun field => ?_
  · rw [FlatFields.names_extend h, Catalogue.names_map]
    exact distinct_of_nodup d.fields.nodup
  · rw [FlatFields.find?_extend field h, Catalogue.find?_map, name_of_find? hd]
    exact Option.or_none

/-- Flattening succeeds on the valid chains whose overrides fit. The names are then the own names
along the chain from the root down, each where it first comes; under each stands what the
last declarer wrote, inherited unless that is the definition itself, and overriding the declarer
before it. A resolver gives the same fields after any questions. -/
theorem flatFields_closed_form (r : Registry) (name : String) :
    ((∃ fields, r.flatFields name = .ok fields) ↔ ∃ ancestors, r.Flattens name ancestors) ∧
      (∀ fields, r.flatFields name = .ok fields ↔
        ∃ ancestors, r.Flattens name ancestors ∧
          fields.names = Definition.fieldNames (r.line (name :: ancestors)) ∧
          ∀ field, fields.find? field =
            Definition.flatField? name (r.line (name :: ancestors)) field) ∧
      (∀ d, r.find? name = some d → d.parent = none →
        r.flatFields name = .ok (d.fields.map (⟨·, name, false, none⟩) fun _ => rfl)) ∧
      ∀ qs, Resolver.replies r (qs ++ [.fields name]) .empty =
        Resolver.replies r qs .empty ++ [Resolver.Reply.fields <$> r.flatFields name] := by
  refine ⟨exists_flatFields_iff, fun _ => flatFields_eq_ok_iff, fun _ => flatFields_of_root, ?_⟩
  intro qs
  rw [Resolver.replies_eq_of_sound Resolver.sound_empty,
    Resolver.replies_eq_of_sound Resolver.sound_empty, List.map_append]
  rfl

end Registry

end RecordDefinitions
