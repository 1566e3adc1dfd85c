import RecordDefinitions.Inheritance.Flattening
import RecordDefinitions.Proofs.Inheritance.Ancestors

/-!
# Flattened fields

`Flattened` says which fields a definition has with those of its ancestors, without
computing them: its own, and those of its parent under other names. Flattening
succeeds on a chain if and only if every override on it fits, and then gives these
fields.
-/

namespace RecordDefinitions

theorem Field.mayReplace_iff {descends : TypeExpr.Lineage} {own base : Field} :
    own.mayReplace descends base ↔
      base.holding = own.holding ∧ (base.nullable → own.nullable) ∧
        TypeExpr.accepts descends own.type base.type := by
  have hnull : (own.nullable || !base.nullable) = true ↔ (base.nullable → own.nullable) := by
    cases own.nullable <;> cases base.nullable <;> decide
  simp only [mayReplace, Bool.and_eq_true, decide_eq_true_eq, hnull, and_assoc]

namespace FlatFields

variable {descends : TypeExpr.Lineage} {definition : String}

/-- The field of that name. -/
def field? (fields : FlatFields) (name : String) : Option Field :=
  (fields.find? name).map (·.field)

@[simp] theorem field?_empty (name : String) : field? .empty name = none := rfl

theorem field?_eq_some_iff {fields : FlatFields} {name : String} {f : Field} :
    fields.field? name = some f ↔ ∃ flat ∈ fields.toList, flat.field = f ∧ f.name = name := by
  simp only [field?, Option.map_eq_some_iff, Catalogue.find?_eq_some_iff]
  constructor
  · rintro ⟨flat, ⟨hm, hn⟩, rfl⟩
    exact ⟨flat, hm, rfl, hn⟩
  · rintro ⟨flat, hm, rfl, hn⟩
    exact ⟨flat, ⟨hm, hn⟩, rfl⟩

theorem find?_inherit (fields : FlatFields) (name : String) :
    fields.inherit.find? name = (fields.find? name).map fun f => { f with inherited := true } :=
  Catalogue.find?_map _ _ fields name

theorem field?_inherit (fields : FlatFields) (name : String) :
    fields.inherit.field? name = fields.field? name := by
  unfold field?
  rw [find?_inherit, Option.map_map]
  rfl

theorem exists_declare_iff {fields : FlatFields} {own : Field} :
    (∃ next, fields.declare descends definition own = .ok next) ↔
      ∀ base, fields.field? own.name = some base → own.mayReplace descends base := by
  unfold declare field?
  cases hb : fields.find? own.name with
  | none => simp
  | some base => by_cases h : own.mayReplace descends base.field <;> simp [h]

/-- A declared field takes the place of the one of its name, and says where that one was
declared. -/
theorem find?_declare {fields next : FlatFields} {own : Field} (name : String)
    (h : fields.declare descends definition own = .ok next) :
    next.find? name =
      if own.name = name then some ⟨own, definition, false, (fields.find? name).map (·.declaredIn)⟩
      else fields.find? name := by
  have hinsert (overrides : Option String) :
      (fields.insert ⟨own, definition, false, overrides⟩).find? name =
        if own.name = name then some ⟨own, definition, false, overrides⟩ else fields.find? name :=
    Catalogue.find?_insert fields _ name
  unfold declare at h
  split at h
  · rename_i hnew
    cases h
    rw [hinsert]
    by_cases hname : own.name = name
    · rw [if_pos hname, if_pos hname, ← hname, hnew, Option.map_none]
    · rw [if_neg hname, if_neg hname]
  · rename_i base hbase
    split at h
    · cases h
      rw [hinsert]
      by_cases hname : own.name = name
      · rw [if_pos hname, if_pos hname, ← hname, hbase, Option.map_some]
      · rw [if_neg hname, if_neg hname]
    · cases h

theorem field?_declare {fields next : FlatFields} {own : Field} (name : String)
    (h : fields.declare descends definition own = .ok next) :
    next.field? name = if own.name = name then some own else fields.field? name := by
  unfold field?
  rw [find?_declare name h]
  split <;> rfl

/-- Fields under different names are declared independently of one another. -/
theorem exists_declareAll_iff {fields : FlatFields} {owns : List Field}
    (hn : (namesOf owns).Nodup) :
    (∃ next, owns.foldlM (declare descends definition) fields = .ok next) ↔
      ∀ own ∈ owns, ∀ base, fields.field? own.name = some base → own.mayReplace descends base := by
  induction owns generalizing fields with
  | nil => exact ⟨fun _ => by simp, fun _ => ⟨fields, rfl⟩⟩
  | cons own owns ih =>
    obtain ⟨hfresh, hn⟩ := List.nodup_cons.mp hn
    have hrest {next : FlatFields} (h : fields.declare descends definition own = .ok next) :
        ∀ other ∈ owns, next.field? other.name = fields.field? other.name := by
      intro other hm
      rw [field?_declare _ h, if_neg]
      intro hsame
      exact hfresh (List.mem_map.mpr ⟨other, hm, hsame.symm⟩)
    simp only [List.foldlM_cons, bind_eq_ok_iff, List.forall_mem_cons]
    have hown : (∃ next, fields.declare descends definition own = .ok next) ↔ _ :=
      exists_declare_iff
    rw [← hown]
    constructor
    · rintro ⟨_, next, hnext, hothers⟩
      refine ⟨⟨next, hnext⟩, fun other hm base hb => ?_⟩
      exact (ih hn).mp ⟨_, hothers⟩ other hm base (by rw [hrest hnext other hm]; exact hb)
    · rintro ⟨⟨next, hnext⟩, hothers⟩
      have howns : ∀ other ∈ owns, ∀ base, next.field? other.name = some base →
          other.mayReplace descends base := by
        intro other hm base hb
        rw [hrest hnext other hm] at hb
        exact hothers other hm base hb
      obtain ⟨last, hlast⟩ := (ih hn).mpr howns
      exact ⟨last, next, hnext, hlast⟩

theorem find?_declareAll {fields next : FlatFields} {owns : List Field}
    (hn : (namesOf owns).Nodup) (name : String)
    (h : owns.foldlM (declare descends definition) fields = .ok next) :
    next.find? name =
      ((findNamed? name owns).map fun own =>
        ⟨own, definition, false, (fields.find? name).map (·.declaredIn)⟩).or
        (fields.find? name) := by
  induction owns generalizing fields with
  | nil =>
    cases h
    rfl
  | cons own owns ih =>
    obtain ⟨hfresh, hn⟩ := List.nodup_cons.mp hn
    rw [List.foldlM_cons, bind_eq_ok_iff] at h
    obtain ⟨middle, hmiddle, hrest⟩ := h
    rw [ih hn hrest, find?_declare name hmiddle]
    have hcons : findNamed? name (own :: owns) =
        if own.name = name then some own else findNamed? name owns := by
      by_cases hname : own.name = name <;> simp [findNamed?, nameOf, hname]
    by_cases hname : own.name = name
    · have hnone : findNamed? name owns = none := by
        rw [← Option.not_isSome_iff_eq_none, isSome_findNamed?_iff, ← hname]
        exact hfresh
      rw [hcons, if_pos hname, if_pos hname, hnone, Option.map_none, Option.none_or,
        Option.map_some, Option.some_or]
    · rw [hcons, if_neg hname, if_neg hname]

theorem exists_extend_iff {fields : FlatFields} {d : Definition} :
    (∃ next, fields.extend descends d = .ok next) ↔
      ∀ own ∈ d.fields.toList, ∀ base, fields.field? own.name = some base →
        own.mayReplace descends base := by
  simp only [extend, exists_declareAll_iff d.fields.nodup, field?_inherit]

theorem find?_extend {fields next : FlatFields} {d : Definition} (name : String)
    (h : fields.extend descends d = .ok next) :
    next.find? name =
      ((d.fields.find? name).map fun own =>
        ⟨own, d.name, false, (fields.find? name).map (·.declaredIn)⟩).or
        ((fields.find? name).map fun f => { f with inherited := true }) := by
  rw [find?_declareAll d.fields.nodup name h, find?_inherit, Option.map_map]
  rfl

theorem field?_extend {fields next : FlatFields} {d : Definition} (name : String)
    (h : fields.extend descends d = .ok next) :
    next.field? name = (d.fields.find? name).or (fields.field? name) := by
  unfold field?
  rw [find?_extend name h]
  cases d.fields.find? name <;> cases fields.find? name <;> rfl

/-- What stands over the fields of the parent: the own fields, each with the place of the field
that it replaces, and those of the parent under other names. -/
theorem mem_extend_iff {fields next : FlatFields} {d : Definition}
    (h : fields.extend descends d = .ok next) {flat : FlatField} :
    flat ∈ next.toList ↔
      (∃ own ∈ d.fields.toList,
        flat = ⟨own, d.name, false, (fields.find? own.name).map (·.declaredIn)⟩) ∨
      ∃ base ∈ fields.toList, ¬ d.fields.contains base.field.name ∧
        flat = { base with inherited := true } := by
  have hfind : flat ∈ next.toList ↔ next.find? flat.field.name = some flat :=
    ⟨fun hm => Catalogue.find?_of_mem hm,
      fun hm => (Catalogue.find?_eq_some_iff.mp hm).1⟩
  rw [hfind, find?_extend _ h]
  constructor
  · intro hflat
    cases hown : d.fields.find? flat.field.name with
    | some own =>
      rw [hown, Option.map_some, Option.some_or, Option.some.injEq] at hflat
      obtain ⟨hm, hname⟩ := Catalogue.find?_eq_some_iff.mp hown
      have hname : own.name = flat.field.name := hname
      exact Or.inl ⟨own, hm, by rw [hname]; exact hflat.symm⟩
    | none =>
      rw [hown, Option.map_none, Option.none_or] at hflat
      obtain ⟨base, hbase, hsame⟩ := Option.map_eq_some_iff.mp hflat
      refine Or.inr ⟨base, (Catalogue.find?_eq_some_iff.mp hbase).1, ?_, hsame.symm⟩
      have hname : base.field.name = flat.field.name := by rw [← hsame]
      simp [Catalogue.contains, hname, hown]
  · rintro (⟨own, hm, rfl⟩ | ⟨base, hm, hnew, rfl⟩)
    · have hown : d.fields.find? own.name = some own :=
        Catalogue.find?_of_mem hm
      simp only [hown, Option.map_some, Option.some_or]
    · have hbase : fields.find? base.field.name = some base :=
        Catalogue.find?_of_mem hm
      have hnone : d.fields.find? base.field.name = none := by
        simpa [Catalogue.contains] using hnew
      simp only [hbase, hnone, Option.map_some, Option.map_none, Option.none_or]

end FlatFields

namespace Registry

variable {r : Registry}

/-- A field of a definition or, under a name that it does not declare itself, of its
parent. -/
inductive Flattened (r : Registry) : String → Field → Prop
  | own {name : String} {d : Definition} {f : Field} :
    r.find? name = some d → f ∈ d.fields.toList → Flattened r name f
  | inherited {name parent : String} {d : Definition} {f : Field} :
    r.find? name = some d → d.parent = some parent → Flattened r parent f →
      ¬ d.fields.contains f.name → Flattened r name f

/-- The definition that declares the field of that name which a definition has: itself, or the
nearest of its ancestors that declares one. -/
inductive DeclaredBy (r : Registry) (field : String) : String → Definition → Prop
  | own {name : String} {d : Definition} :
    r.find? name = some d → d.fields.contains field → DeclaredBy r field name d
  | inherited {name parent : String} {d e : Definition} :
    r.find? name = some d → d.parent = some parent → ¬ d.fields.contains field →
      DeclaredBy r field parent e → DeclaredBy r field name e

/-- The fields that a definition declares over fields of its parent may replace them:
they are held the same way, do not drop null and accept what was accepted. -/
def OverridesFit (r : Registry) (d : Definition) : Prop :=
  ∀ parent, d.parent = some parent → ∀ own ∈ d.fields.toList, ∀ base,
    r.Flattened parent base → base.name = own.name →
      base.holding = own.holding ∧ (base.nullable → own.nullable) ∧
        TypeExpr.accepts r.lineage own.type base.type

/-- The fields of a definition are those that `Flattened` says. -/
def FlattenedBy (r : Registry) (name : String) (fields : FlatFields) : Prop :=
  ∀ f n, fields.field? n = some f ↔ r.Flattened name f ∧ f.name = n

theorem DeclaredBy.find? {field name : String} {e : Definition}
    (h : r.DeclaredBy field name e) : r.find? e.name = some e := by
  induction h with
  | own hd _ => exact find?_of_mem (Catalogue.find?_eq_some_iff.mp hd).1
  | inherited _ _ _ _ ih => exact ih

theorem flattened_root_iff {name : String} {d : Definition} (hd : r.find? name = some d)
    (hp : d.parent = none) {f : Field} : r.Flattened name f ↔ f ∈ d.fields.toList := by
  constructor
  · rintro (⟨hd', hf⟩ | ⟨hd', hp', _, _⟩) <;> simp_all
  · exact .own hd

theorem flattened_step_iff {name parent : String} {d : Definition} (hd : r.find? name = some d)
    (hp : d.parent = some parent) {f : Field} :
    r.Flattened name f ↔
      f ∈ d.fields.toList ∨ r.Flattened parent f ∧ ¬ d.fields.contains f.name := by
  constructor
  · rintro (⟨hd', hf⟩ | ⟨hd', hp', hf, hn⟩)
    · rw [hd] at hd'
      cases hd'
      exact Or.inl hf
    · rw [hd] at hd'
      cases hd'
      rw [hp] at hp'
      cases hp'
      exact Or.inr ⟨hf, hn⟩
  · rintro (hf | ⟨hf, hn⟩)
    · exact .own hd hf
    · exact .inherited hd hp hf hn

theorem flatFields_root {name : String} {d : Definition} (hd : r.find? name = some d)
    (hp : d.parent = none) : r.flatFields name = FlatFields.extend r.lineage .empty d := by
  have hchain := chain_eq_ok_iff.mpr ⟨[], Ascends.root hd hp, rfl⟩
  simp only [flatFields, hchain, bind, Except.bind, List.reverse_singleton]
  rw [List.foldlM_cons, extendNamed, get_of_find? hd]
  exact bind_pure _

theorem flatFields_step {name parent : String} {d : Definition} {rest : List String}
    (hd : r.find? name = some d) (hp : d.parent = some parent) (hrest : r.Ascends parent rest) :
    r.flatFields name = r.flatFields parent >>= fun fields => fields.extend r.lineage d := by
  have hchain := chain_eq_ok_iff.mpr ⟨_, Ascends.step hd hp hrest, rfl⟩
  have hparent := chain_eq_ok_iff.mpr ⟨_, hrest, rfl⟩
  simp only [flatFields, hchain, hparent]
  rw [List.reverse_cons]
  change List.foldlM _ _ (_ ++ [name]) = List.foldlM _ _ _ >>= _
  rw [List.foldlM_append]
  congr 1
  funext fields
  rw [List.foldlM_cons, extendNamed, get_of_find? hd]
  exact bind_pure _

theorem rooted_of_flatFields {name : String} {fields : FlatFields}
    (h : r.flatFields name = .ok fields) : r.Rooted name := by
  obtain ⟨names, hchain, -⟩ := bind_eq_ok_iff.mp h
  exact exists_chain_iff.mp ⟨names, hchain⟩

/-- Flattening gives the fields that are `Flattened`. -/
theorem flattenedBy_of_flatFields {name : String} {fields : FlatFields}
    (h : r.flatFields name = .ok fields) : r.FlattenedBy name fields := by
  obtain ⟨names, hchain, -⟩ := bind_eq_ok_iff.mp h
  obtain ⟨ancestors, hasc, -⟩ := chain_eq_ok_iff.mp hchain
  clear hchain
  induction hasc generalizing fields with
  | root hd hp =>
    rw [flatFields_root hd hp] at h
    intro f n
    rw [FlatFields.field?_extend n h, flattened_root_iff hd hp, FlatFields.field?_empty,
      Option.or_none]
    exact Catalogue.find?_eq_some_iff
  | @step name parent d rest hd hp hrest ih =>
    rw [flatFields_step hd hp hrest, bind_eq_ok_iff] at h
    obtain ⟨inherited, hinherited, hextend⟩ := h
    have hbase := ih hinherited
    intro f n
    rw [FlatFields.field?_extend n hextend, flattened_step_iff hd hp]
    cases hown : d.fields.find? n with
    | some own =>
      have hm := Catalogue.find?_eq_some_iff.mp hown
      rw [Option.some_or, ← hown, Catalogue.find?_eq_some_iff]
      constructor
      · rintro ⟨hf, hn⟩
        exact ⟨Or.inl hf, hn⟩
      · rintro ⟨hf | ⟨_, hnot⟩, hn⟩
        · exact ⟨hf, hn⟩
        · rw [hn] at hnot
          exact absurd (Catalogue.contains_of_find? hown) hnot
    | none =>
      rw [Option.none_or, hbase f n]
      constructor
      · rintro ⟨hf, rfl⟩
        exact ⟨Or.inr ⟨hf, by simp [Catalogue.contains, hown]⟩, rfl⟩
      · rintro ⟨hf | ⟨hf, _⟩, hn⟩
        · rw [Catalogue.find?_eq_some_iff.mpr ⟨hf, hn⟩] at hown
          cases hown
        · exact ⟨hf, hn⟩

/-- A flattened field says which definition declares it. -/
theorem declaredBy_of_flatFields {name : String} {fields : FlatFields}
    (h : r.flatFields name = .ok fields) {flat : FlatField} (hflat : flat ∈ fields.toList) :
    ∃ e, r.DeclaredBy flat.field.name name e ∧ e.name = flat.declaredIn := by
  obtain ⟨names, hchain, -⟩ := bind_eq_ok_iff.mp h
  obtain ⟨ancestors, hasc, -⟩ := chain_eq_ok_iff.mp hchain
  clear hchain
  induction hasc generalizing fields flat with
  | @root name d hd hp =>
    rw [flatFields_root hd hp] at h
    rcases (FlatFields.mem_extend_iff h).mp hflat with ⟨own, hown, rfl⟩ | ⟨base, hbase, -⟩
    · exact ⟨d, .own hd (Catalogue.contains_iff.mpr (List.mem_map_of_mem hown)), rfl⟩
    · cases hbase
  | @step name parent d rest hd hp hrest ih =>
    rw [flatFields_step hd hp hrest, bind_eq_ok_iff] at h
    obtain ⟨inherited, hinherited, hextend⟩ := h
    rcases (FlatFields.mem_extend_iff hextend).mp hflat with
      ⟨own, hown, rfl⟩ | ⟨base, hbase, hnew, rfl⟩
    · exact ⟨d, .own hd (Catalogue.contains_iff.mpr (List.mem_map_of_mem hown)), rfl⟩
    · obtain ⟨e, he, hname⟩ := ih hinherited hbase
      exact ⟨e, .inherited hd hp hnew he, hname⟩

/-- With the fields of the parent at hand, flattening goes on if and only if the
overrides of the definition fit. -/
theorem exists_extend_iff_overridesFit {parent : String} {d : Definition} {fields : FlatFields}
    (hp : d.parent = some parent) (hfields : r.FlattenedBy parent fields) :
    (∃ next, fields.extend r.lineage d = .ok next) ↔ r.OverridesFit d := by
  rw [FlatFields.exists_extend_iff]
  constructor
  · intro h parent' hp' own hm base hbase hname
    rw [hp] at hp'
    cases hp'
    exact Field.mayReplace_iff.mp (h own hm base ((hfields base own.name).mpr ⟨hbase, hname⟩))
  · intro h own hm base hb
    obtain ⟨hbase, hname⟩ := (hfields base own.name).mp hb
    exact Field.mayReplace_iff.mpr (h parent hp own hm base hbase hname)

/-- The registered definitions of the names. -/
def line (r : Registry) (names : List String) : List Definition := names.filterMap r.find?

theorem line_cons {name : String} {d : Definition} {names : List String}
    (hd : r.find? name = some d) : r.line (name :: names) = d :: r.line names :=
  List.filterMap_cons_some hd

theorem mem_of_mem_line {names : List String} {d : Definition} (h : d ∈ r.line names) :
    d ∈ r.toList ∧ d.name ∈ names := by
  obtain ⟨name, hm, hd⟩ := List.mem_filterMap.mp h
  obtain ⟨hreg, rfl⟩ := Catalogue.find?_eq_some_iff.mp hd
  exact ⟨hreg, hm⟩

theorem overridesFit_of_root {d : Definition} (hp : d.parent = none) : r.OverridesFit d := by
  intro parent hsome
  rw [hp] at hsome
  cases hsome

/-- A name can be flattened when every override on its chain fits. -/
theorem exists_flatFields_of_ascends {name : String} {ancestors : List String}
    (hasc : r.Ascends name ancestors) (hfit : ∀ d ∈ r.line (name :: ancestors), r.OverridesFit d) :
    ∃ fields, r.flatFields name = .ok fields := by
  induction hasc with
  | root hd hp =>
    rw [flatFields_root hd hp, FlatFields.exists_extend_iff]
    intro own _ base hb
    cases hb
  | step hd hp hrest ih =>
    rw [line_cons hd, List.forall_mem_cons] at hfit
    obtain ⟨inherited, hinherited⟩ := ih hfit.2
    obtain ⟨fields, hfields⟩ :=
      (exists_extend_iff_overridesFit hp (flattenedBy_of_flatFields hinherited)).mpr hfit.1
    refine ⟨fields, ?_⟩
    rw [flatFields_step hd hp hrest, bind_eq_ok_iff]
    exact ⟨inherited, hinherited, hfields⟩

/-- Flattening a name fails on no override on its chain. -/
theorem overridesFit_of_mem_line {name : String} {ancestors : List String} {fields : FlatFields}
    (hasc : r.Ascends name ancestors) (h : r.flatFields name = .ok fields) :
    ∀ d ∈ r.line (name :: ancestors), r.OverridesFit d := by
  induction hasc generalizing fields with
  | root hd hp =>
    rw [line_cons hd]
    exact List.forall_mem_cons.mpr ⟨overridesFit_of_root hp, by simp [line]⟩
  | step hd hp hrest ih =>
    rw [flatFields_step hd hp hrest, bind_eq_ok_iff] at h
    obtain ⟨inherited, hinherited, hextend⟩ := h
    have hown := (exists_extend_iff_overridesFit hp (flattenedBy_of_flatFields hinherited)).mp
      ⟨fields, hextend⟩
    rw [line_cons hd]
    exact List.forall_mem_cons.mpr ⟨hown, ih hinherited⟩

/-- Flattening a definition fails on none of its own overrides. -/
theorem overridesFit_of_flatFields {d : Definition} {fields : FlatFields} (hd : d ∈ r.toList)
    (h : r.flatFields d.name = .ok fields) : r.OverridesFit d := by
  obtain ⟨names, hchain, -⟩ := bind_eq_ok_iff.mp h
  obtain ⟨ancestors, hasc, -⟩ := chain_eq_ok_iff.mp hchain
  refine overridesFit_of_mem_line hasc h d ?_
  rw [line_cons (find?_of_mem hd)]
  exact List.mem_cons_self

/-- A rooted name can be flattened when no override in the registry is unfit. -/
theorem exists_flatFields {name : String} (hroot : r.Rooted name)
    (hfit : ∀ d ∈ r.toList, r.OverridesFit d) : ∃ fields, r.flatFields name = .ok fields := by
  obtain ⟨names, hchain⟩ := exists_chain_iff.mpr hroot
  obtain ⟨ancestors, hasc, -⟩ := chain_eq_ok_iff.mp hchain
  exact exists_flatFields_of_ascends hasc fun d hd => hfit d (mem_of_mem_line hd).1

end Registry

end RecordDefinitions
