import RecordDefinitions.Proofs.Resolution.Substitution

/-!
# Resolved sets

A resolved set holds for every definition of its registry what resolving that definition
gives. It is closed: parents and the definitions that types name are in it.
-/

namespace RecordDefinitions

variable {r : Registry} {s : ResolvedSet}

theorem resolvable_of_resolve (h : resolve r = .ok s) : r.Resolvable := by
  refine Registry.resolvable_of_resolved fun d hd => ?_
  obtain ⟨a, -, ha⟩ := exists_of_forall₂_left (resolve_eq_ok_iff.mp h) d hd
  exact ⟨a, ha⟩

theorem resolved_of_mem (h : resolve r = .ok s) {d : ResolvedDefinition} (hd : d ∈ s.toList) :
    r.resolved d.name = .ok d := by
  obtain ⟨e, -, he⟩ := exists_of_forall₂_left (resolve_eq_ok_iff.mp h).flip d hd
  obtain ⟨-, hfind, -⟩ := Registry.resolved_eq_ok_iff.mp he
  have hname : d.name = e.name := Registry.name_of_find? hfind
  rw [hname]
  exact he

/-- What resolving a definition gives, part by part. -/
theorem parts_of_mem (h : resolve r = .ok s) {d : ResolvedDefinition} (hd : d ∈ s.toList) :
    r.find? d.name = some d.definition ∧ r.flatFields d.name = .ok d.fields := by
  obtain ⟨-, hfind, -, -, hfields, -⟩ := Registry.resolved_eq_ok_iff.mp (resolved_of_mem h hd)
  exact ⟨hfind, hfields⟩

theorem exists_ascends_of_mem (h : resolve r = .ok s) {d : ResolvedDefinition}
    (hd : d ∈ s.toList) : ∃ ancestors, r.Ascends d.name ancestors := by
  have hrooted := Registry.rooted_of_flatFields (parts_of_mem h hd).2
  obtain ⟨names, hchain⟩ := Registry.exists_chain_iff.mpr hrooted
  obtain ⟨ancestors, hascends, -⟩ := Registry.chain_eq_ok_iff.mp hchain
  exact ⟨ancestors, hascends⟩

/-- A resolved definition has its own fields over those of its parent. -/
theorem exists_extend_of_mem (h : resolve r = .ok s) {d : ResolvedDefinition}
    (hd : d ∈ s.toList) :
    ∃ below, FlatFields.extend r.lineage below d.definition = .ok d.fields ∧
      (d.definition.parent = none → below = .empty) ∧
      ∀ parent, d.definition.parent = some parent → r.flatFields parent = .ok below := by
  obtain ⟨hfind, hfields⟩ := parts_of_mem h hd
  obtain ⟨ancestors, hascends⟩ := exists_ascends_of_mem h hd
  cases hascends with
  | root hroot hp =>
    rw [hfind, Option.some.injEq] at hroot
    subst hroot
    rw [Registry.flatFields_root hfind hp] at hfields
    exact ⟨.empty, hfields, fun _ => rfl, fun parent hsome => by simp [hp] at hsome⟩
  | step hstep hp hrest =>
    rw [hfind, Option.some.injEq] at hstep
    subst hstep
    rw [Registry.flatFields_step hfind hp hrest, bind_eq_ok_iff] at hfields
    obtain ⟨below, hbelow, hextend⟩ := hfields
    refine ⟨below, hextend, fun hnone => by simp [hp] at hnone, fun parent hsome => ?_⟩
    rw [hp, Option.some.injEq] at hsome
    rw [← hsome]
    exact hbelow

theorem extend_of_parent (h : resolve r = .ok s) {d p : ResolvedDefinition} (hd : d ∈ s.toList)
    (hp : p ∈ s.toList) (hparent : d.definition.parent = some p.name) :
    FlatFields.extend r.lineage p.fields d.definition = .ok d.fields := by
  obtain ⟨below, hextend, -, hbelow⟩ := exists_extend_of_mem h hd
  have hsame := (hbelow _ hparent).symm.trans (parts_of_mem h hp).2
  rw [← Except.ok.inj hsame]
  exact hextend

theorem exists_mem_of_contains (h : resolve r = .ok s) {name : String} (hname : r.contains name) :
    ∃ d ∈ s.toList, d.name = name := by
  obtain ⟨d, hd, -⟩ := exists_find?_of_resolve h hname
  exact ⟨d, Catalogue.find?_eq_some_iff.mp hd⟩

theorem exists_parent_of_mem (h : resolve r = .ok s) {d : ResolvedDefinition} (hd : d ∈ s.toList)
    {parent : String} (hp : d.definition.parent = some parent) :
    ∃ p ∈ s.toList, p.name = parent := by
  obtain ⟨hfind, hfields⟩ := parts_of_mem h hd
  have hparent := Registry.isParent_of_find? hfind hp
  exact exists_mem_of_contains h ((Registry.rooted_of_flatFields hfields).parent hparent).contains

/-- The types of flattened fields name definitions of the set. -/
theorem exists_reference_of_mem (h : resolve r = .ok s) {d : ResolvedDefinition}
    (hd : d ∈ s.toList) {f : FlatField} (hf : f ∈ d.fields.toList) {name : String}
    (hname : name ∈ f.field.containerType.references) : ∃ e ∈ s.toList, e.name = name := by
  obtain ⟨-, hfields⟩ := parts_of_mem h hd
  have hflat : r.Flattened d.name f.field :=
    ((Registry.flattenedBy_of_flatFields hfields _ _).mp
      (FlatFields.field?_eq_some_iff.mpr ⟨f, hf, rfl, rfl⟩)).1
  obtain ⟨e, he, hown⟩ := Registry.exists_declaration hflat
  rw [Field.references_containerType] at hname
  exact exists_mem_of_contains h ((resolvable_of_resolve h).known e he f.field hown name hname)

end RecordDefinitions
