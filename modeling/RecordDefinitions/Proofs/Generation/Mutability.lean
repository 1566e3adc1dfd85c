import RecordDefinitions.Proofs.Generation.Heritage

/-!
# Members that cannot be written

The view of an immutable definition has no setters, not even for inherited fields. In the file of
interfaces a member is marked `readonly` where it is listed, so an inherited member has the mark
of the definition that declares it, which may differ from the one that inherits it.
-/

namespace RecordDefinitions.Interfaces

open Generation

variable {r : Registry} {s : ResolvedSet} {d : ResolvedDefinition}

/-- The member for a flattened field has the mark of the definition that declares the field. -/
theorem Effective.exists_member (h : resolve r = .ok s) (hd : d ∈ s.toList)
    {members : List MemberEntry} (heffective : Effective (fileOf s) (entryOf s d) members)
    {f : FlatField} (hf : f ∈ d.fields.toList) :
    ∃ m, (∀ other, other ∈ members ∧ other.name = f.field.name ↔ other = m) ∧
      ∃ e, r.DeclaredBy f.field.name d.name e ∧ m.readonly = e.immutable := by
  obtain ⟨e, he, hdeclared⟩ := Registry.declaredBy_of_flatFields (parts_of_mem h hd).2 hf
  have hmem : (propertyOf r (typeNames s) f).entry ∈ members :=
    (heffective.perm h hd).mem_iff.mpr (List.mem_map_of_mem hf)
  refine ⟨(propertyOf r (typeNames s) f).entry, fun other => ⟨?_, ?_⟩, e, he, ?_⟩
  · rintro ⟨hother, hname⟩
    exact List.inj_on_of_nodup_map (heffective.nodup_names h hd) hother hmem hname
  · rintro rfl
    exact ⟨hmem, rfl⟩
  · have hfind : r.find? f.declaredIn = some e := hdeclared ▸ he.find?
    change (r.find? f.declaredIn).any (·.immutable) = e.immutable
    rw [hfind, Option.any_some]

theorem setter_eq_none_iff (immutable : Bool) (f : FlatField) :
    (FieldView.ofField immutable f).accessors.setter = none ↔ immutable := by
  cases immutable <;> simp [FieldView.ofField, Accessors.ofField]

/-! ## A mutable parent -/

/-- A mutable definition, and an immutable one that has only what it inherits. -/
def partlyFixed : Registry := Catalogue.ofList
  [⟨"Base", none, false, Catalogue.ofList [.ofType "x" (.scalar .int)]⟩,
    ⟨"Fixed", some "Base", true, .empty⟩]

theorem find?_partlyFixed :
    partlyFixed.find? "Base" =
        some ⟨"Base", none, false, Catalogue.ofList [.ofType "x" (.scalar .int)]⟩ ∧
      partlyFixed.find? "Fixed" = some ⟨"Fixed", some "Base", true, .empty⟩ := by
  decide

/-- The two interfaces in the printed file. -/
def partlyFixedFile : List InterfaceEntry :=
  [⟨"Base", none, [⟨none, false, "x", true, "number"⟩]⟩, ⟨"Fixed", some ("Base", []), []⟩]

/-- The printed file, the immutable definition among the resolved ones, and its only field. -/
theorem exists_fixed : ∃ s, resolve partlyFixed = .ok s ∧ fileOf s = partlyFixedFile ∧
    readFile (write (.ofResolved s)).toList = some partlyFixedFile ∧ ∃ fixed ∈ s.toList,
      fixed.name = "Fixed" ∧ fixed.definition.immutable ∧
        ∃ f ∈ fixed.fields.toList, f.field.name = "x" := by
  obtain ⟨s, h, hfile, hcontained⟩ : ∃ s, resolve partlyFixed = .ok s ∧
      fileOf s = partlyFixedFile ∧
      ∀ d ∈ (ViewModel.ofResolved s).definitions, ∀ f ∈ Target.typescript.listed d, Contained f :=
    exists_ok_of_decide (by decide +kernel)
  have hread := (says_fileOf h).read.mpr hcontained
  rw [hfile] at hread
  have hregistered : partlyFixed.contains "Fixed" := by decide
  obtain ⟨fixed, hfixed, hname⟩ := exists_mem_of_contains h hregistered
  obtain ⟨hfind, hfields⟩ := parts_of_mem h hfixed
  rw [hname] at hfind hfields
  have himmutable : fixed.definition = ⟨"Fixed", some "Base", true, .empty⟩ :=
    Option.some.inj (hfind.symm.trans find?_partlyFixed.2)
  have hbase : partlyFixed.Flattened "Base" (.ofType "x" (.scalar .int)) :=
    .own find?_partlyFixed.1 (by decide)
  have hflat : partlyFixed.Flattened "Fixed" (.ofType "x" (.scalar .int)) :=
    .inherited find?_partlyFixed.2 rfl hbase (by decide)
  obtain ⟨f, hf, hfield, -⟩ := FlatFields.field?_eq_some_iff.mp
    ((Registry.flattenedBy_of_flatFields hfields _ _).mpr ⟨hflat, rfl⟩)
  exact ⟨s, h, hfile, hread, fixed, hfixed, hname, by rw [himmutable], f, hf, by rw [hfield]; rfl⟩

theorem not_immutable_of_declaredBy_fixed {e : Definition}
    (h : partlyFixed.DeclaredBy "x" "Fixed" e) : e.immutable = false := by
  obtain ⟨hbase, hfixed⟩ := find?_partlyFixed
  cases h with
  | own hd hown =>
    rw [hfixed, Option.some.injEq] at hd
    subst hd
    cases hown
  | inherited hd hp _ hparent =>
    rw [hfixed, Option.some.injEq] at hd
    subst hd
    obtain rfl := Option.some.inj hp
    cases hparent with
    | own hd _ =>
      rw [hbase, Option.some.injEq] at hd
      subst hd
      rfl
    | inherited hd hp _ _ =>
      rw [hbase, Option.some.injEq] at hd
      subst hd
      cases hp

/-! ## Where the file and the view agree -/

/-- The member for a field cannot be written if and only if the definition that declares the field
is immutable, whereas the view leaves the setter away if and only if the definition that has the
field is. The two agree on a field exactly where these definitions do. -/
theorem readonly_iff_declared_immutable (h : resolve r = .ok s) (hd : d ∈ s.toList)
    {f : FlatField} (hf : f ∈ d.fields.toList) :
    Says (.ofResolved s) (fileOf s) ∧ entryOf s d ∈ fileOf s ∧
    ∃ members, (∀ others, Effective (fileOf s) (entryOf s d) others ↔ others = members) ∧
      ∃ m, (∀ other, other ∈ members ∧ other.name = f.field.name ↔ other = m) ∧
        ∃ e, r.DeclaredBy f.field.name d.name e ∧ (m.readonly ↔ e.immutable) ∧
          ∃ v ∈ (DefinitionView.ofResolved d).fields, v.name = f.field.name ∧
            (v.accessors.setter = none ↔ d.definition.immutable) ∧
            ((m.readonly ↔ v.accessors.setter = none) ↔ e.immutable = d.definition.immutable) := by
  obtain ⟨members, heffective, -⟩ := exists_effective h hd
  obtain ⟨m, hm, e, he, hreadonly⟩ := heffective.exists_member h hd hf
  have hsetter := setter_eq_none_iff d.definition.immutable f
  refine ⟨says_fileOf h, entryOf_mem hd, members, fun others => ⟨?_, ?_⟩, m, hm, e, he,
    by rw [hreadonly], .ofField d.definition.immutable f, List.mem_map_of_mem hf, rfl, hsetter, ?_⟩
  · exact fun hothers => hothers.unique (nodup_names_fileOf s) heffective
  · rintro rfl
    exact heffective
  · rw [hsetter, hreadonly]
    exact Bool.eq_iff_iff.symm

theorem readonly_iff_declared_immutable_fixed : ∃ s, resolve partlyFixed = .ok s ∧
    ∃ fixed ∈ s.toList, fixed.name = "Fixed" ∧ fixed.definition.immutable ∧
      ∃ f ∈ fixed.fields.toList, f.field.name = "x" ∧
        ∃ members, Effective (fileOf s) (entryOf s fixed) members ∧
          ∃ m ∈ members, m.name = "x" ∧ (m.readonly ↔ false) := by
  obtain ⟨s, h, -, -, fixed, hfixed, hname, himmutable, f, hf, hx⟩ := exists_fixed
  obtain ⟨-, -, members, heffective, m, hm, e, he, hreadonly, -⟩ :=
    readonly_iff_declared_immutable h hfixed hf
  rw [hx, hname] at he
  rw [not_immutable_of_declaredBy_fixed he] at hreadonly
  obtain ⟨hmem, hmname⟩ := (hm m).mpr rfl
  exact ⟨s, h, fixed, hfixed, hname, himmutable, f, hf, hx, members, (heffective members).mpr rfl,
    m, hmem, hmname.trans hx, by simpa using hreadonly⟩

/-- The only field of the immutable definition has no setter, and in the printed file its member can
be written. -/
theorem not_readonly_fixed : ∃ s, resolve partlyFixed = .ok s ∧
    readFile (write (.ofResolved s)).toList = some partlyFixedFile ∧ fileOf s = partlyFixedFile ∧
    ∃ fixed ∈ s.toList, fixed.name = "Fixed" ∧ fixed.definition.immutable ∧
      ∃ f ∈ fixed.fields.toList, f.field.name = "x" ∧
        (FieldView.ofField fixed.definition.immutable f).accessors.setter = none ∧
        ∃ members, Effective (fileOf s) (entryOf s fixed) members ∧
          ∃ m ∈ members, m.name = "x" ∧ m.readonly = false := by
  obtain ⟨s, h, hfile, hread, fixed, hfixed, hname, himmutable, f, hf, hx⟩ := exists_fixed
  obtain ⟨members, heffective, -⟩ := exists_effective h hfixed
  obtain ⟨m, hm, e, he, hreadonly⟩ := heffective.exists_member h hfixed hf
  rw [hx, hname] at he
  obtain ⟨hmem, hmname⟩ := (hm m).mpr rfl
  refine ⟨s, h, hread, hfile, fixed, hfixed, hname, himmutable, f, hf, hx,
    (setter_eq_none_iff _ f).mpr himmutable, members, heffective, m, hmem, hmname.trans hx, ?_⟩
  rw [hreadonly]
  exact not_immutable_of_declaredBy_fixed he

end RecordDefinitions.Interfaces
