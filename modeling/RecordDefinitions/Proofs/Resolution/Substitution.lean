import RecordDefinitions.Proofs.Inheritance.Lineage
import RecordDefinitions.Proofs.Resolution.Success
import RecordDefinitions.Proofs.TypeExpr.Assignable

/-!
# Records of a descendant in place of records of an ancestor

An override is compared only with the field that it replaces. Since the comparison is
reflexive and transitive, each flattened field of an ancestor, however far away, has a
field of the descendant that can stand for it.
-/

namespace RecordDefinitions

open Relation

/-- Whoever reads the second field can be given the first one: it is held the same way,
allows null if the second one does, and accepts every value of the second one. -/
structure Field.StandsFor (descends : TypeExpr.Lineage) (own base : Field) : Prop where
  holding : own.holding = base.holding
  nullable : base.nullable → own.nullable
  accepts : TypeExpr.accepts descends own.containerType base.containerType

namespace Field.StandsFor

variable {descends : TypeExpr.Lineage}

theorem refl (f : Field) : f.StandsFor descends f := ⟨rfl, id, TypeExpr.accepts_self _⟩

theorem trans (hdescends : ∀ x y z, descends x y → descends y z → descends x z)
    {f g h : Field} (hfg : f.StandsFor descends g) (hgh : g.StandsFor descends h) :
    f.StandsFor descends h where
  holding := hfg.holding.trans hgh.holding
  nullable hnull := hfg.nullable (hgh.nullable hnull)
  accepts := TypeExpr.accepts_trans hdescends hfg.accepts hgh.accepts

/-- Fields that are held the same way accept one another's values as their types do. -/
theorem of_type {own base : Field} (hholding : base.holding = own.holding)
    (hnull : base.nullable → own.nullable) (htype : TypeExpr.accepts descends own.type base.type) :
    own.StandsFor descends base where
  holding := hholding.symm
  nullable := hnull
  accepts := by
    have hrules := TypeExpr.rules_of_accepts htype
    simp only [containerType, hholding]
    cases own.holding with
    | single => exact htype
    | list => exact TypeExpr.accepts_of_rules (.list hrules)
    | map => exact TypeExpr.accepts_of_rules (.map hrules)

end Field.StandsFor

namespace Registry

variable {r : Registry}

/-- One step down: a field of the parent is inherited, or replaced by one that fits. -/
theorem Flattened.exists_standsFor {name parent : String} {d : Definition} {base : Field}
    (hd : r.find? name = some d) (hp : d.parent = some parent) (hfit : r.OverridesFit d)
    (hbase : r.Flattened parent base) :
    ∃ own, r.Flattened name own ∧ own.name = base.name ∧ own.StandsFor r.lineage base := by
  by_cases hown : d.fields.contains base.name
  · obtain ⟨own, hfound⟩ := Option.isSome_iff_exists.mp hown
    obtain ⟨hm, hname⟩ := Catalogue.find?_eq_some_iff.mp hfound
    obtain ⟨hholding, hnull, htype⟩ := hfit parent hp own hm base hbase hname.symm
    exact ⟨own, .own hd hm, hname, .of_type hholding hnull htype⟩
  · exact ⟨base, .inherited hd hp hbase hown, rfl, .refl base⟩

/-- Any number of steps down. -/
theorem Flattened.exists_standsFor_of_ancestor {name ancestor : String} {base : Field}
    (hfit : ∀ d ∈ r.toList, r.OverridesFit d) (ha : TransGen r.IsParent name ancestor)
    (hbase : r.Flattened ancestor base) :
    ∃ own, r.Flattened name own ∧ own.name = base.name ∧ own.StandsFor r.lineage base := by
  have hstep {name parent : String} (hparent : r.IsParent name parent) {base : Field}
      (hbase : r.Flattened parent base) :
      ∃ own, r.Flattened name own ∧ own.name = base.name ∧ own.StandsFor r.lineage base := by
    obtain ⟨d, hd, hp⟩ := Option.bind_eq_some_iff.mp hparent
    have hm := (Catalogue.find?_eq_some_iff.mp hd).1
    exact hbase.exists_standsFor hd hp (hfit d hm)
  induction ha using TransGen.head_induction_on with
  | single hparent => exact hstep hparent hbase
  | head hparent _ ih =>
    obtain ⟨middle, hmiddle, hname, hstands⟩ := ih
    obtain ⟨own, hown, hname', hstands'⟩ := hstep hparent hmiddle
    exact ⟨own, hown, hname'.trans hname, hstands'.trans r.lineage_trans hstands⟩

/-- Ancestors of a rooted name are registered. -/
theorem Rooted.contains_ancestor {name ancestor : String} (h : r.Rooted name)
    (ha : TransGen r.IsParent name ancestor) : r.contains ancestor :=
  (h ancestor ha.to_reflTransGen).1

end Registry

theorem exists_find?_of_resolve {r : Registry} {s : ResolvedSet} (h : resolve r = .ok s)
    {name : String} (hname : r.contains name) :
    ∃ a, s.find? name = some a ∧ r.resolved name = .ok a := by
  obtain ⟨d, hd, rfl⟩ := Registry.exists_mem_of_contains hname
  obtain ⟨a, ha, hresolved⟩ := exists_of_forall₂_left (resolve_eq_ok_iff.mp h) d hd
  obtain ⟨-, hfind, -⟩ := Registry.resolved_eq_ok_iff.mp hresolved
  exact ⟨a, Catalogue.find?_eq_some_iff.mpr ⟨ha, Registry.name_of_find? hfind⟩, hresolved⟩

/-- In a registry that resolves, each flattened field of an ancestor has a flattened field
of the descendant, under the same name, that can stand for it. -/
theorem substitutable_of_resolve {r : Registry} {s : ResolvedSet} (h : resolve r = .ok s)
    {d : Definition} (hd : d ∈ r.toList) {ancestor : String}
    (ha : TransGen r.IsParent d.name ancestor) :
    ∃ lower upper, s.find? d.name = some lower ∧ s.find? ancestor = some upper ∧
      ∀ base ∈ upper.fields.toList, ∃ own, lower.fields.find? base.field.name = some own ∧
        own.field.StandsFor r.lineage base.field := by
  have hresolvable : r.Resolvable := by
    refine Registry.resolvable_of_resolved fun e he => ?_
    obtain ⟨a, -, hresolved⟩ := exists_of_forall₂_left (resolve_eq_ok_iff.mp h) e he
    exact ⟨a, hresolved⟩
  have hroot := hresolvable.rooted d hd
  obtain ⟨lower, hlower, hlowerResolved⟩ := exists_find?_of_resolve h hroot.contains
  obtain ⟨upper, hupper, hupperResolved⟩ :=
    exists_find?_of_resolve h (hroot.contains_ancestor ha)
  obtain ⟨-, -, -, -, hlowerFields, -⟩ := Registry.resolved_eq_ok_iff.mp hlowerResolved
  obtain ⟨-, -, -, -, hupperFields, -⟩ := Registry.resolved_eq_ok_iff.mp hupperResolved
  refine ⟨lower, upper, hlower, hupper, fun base hbase => ?_⟩
  have hflat : r.Flattened ancestor base.field :=
    ((Registry.flattenedBy_of_flatFields hupperFields _ _).mp
      (FlatFields.field?_eq_some_iff.mpr ⟨base, hbase, rfl, rfl⟩)).1
  obtain ⟨own, hown, hname, hstands⟩ :=
    hflat.exists_standsFor_of_ancestor hresolvable.overrides ha
  have hfield := (Registry.flattenedBy_of_flatFields hlowerFields own _).mpr ⟨hown, hname⟩
  obtain ⟨flat, hfind, rfl⟩ := Option.map_eq_some_iff.mp hfield
  exact ⟨flat, hfind, hstands⟩

/-- A flat for a cat, a house for any animal, and a farm for whatever lives there. -/
def lodgings : Registry := Catalogue.ofList
  [⟨"Animal", none, false, .empty⟩, ⟨"Cat", some "Animal", false, .empty⟩,
    ⟨"Flat", none, false, Catalogue.ofList
      [.ofType "pet" (.definition "Cat"), .ofType "rent" (.scalar .int)]⟩,
    ⟨"House", some "Flat", false, Catalogue.ofList [.ofType "pet" (.definition "Animal")]⟩,
    ⟨"Farm", some "House", false, Catalogue.ofList
      [{ Field.ofType "pet" (.union [.scalar .string, .scalar .object]) with nullable := true }]⟩]

theorem substitutable_of_resolve_lodgings :
    ∃ s, resolve lodgings = .ok s ∧ TransGen lodgings.IsParent "Farm" "Flat" ∧
      ∃ farm flat, s.find? "Farm" = some farm ∧ s.find? "Flat" = some flat ∧
        ∀ base ∈ flat.fields.toList, ∃ own, farm.fields.find? base.field.name = some own ∧
          own.field.StandsFor lodgings.lineage base.field := by
  have hok : (resolve lodgings).isOk := by decide +kernel
  have hfarm : ∃ d ∈ lodgings.toList, d.name = "Farm" := by decide
  have hancestor : TransGen lodgings.IsParent "Farm" "Flat" :=
    .tail (.single (b := "House") (by unfold Registry.IsParent; decide))
      (by unfold Registry.IsParent; decide)
  obtain ⟨d, hd, hname⟩ := hfarm
  cases h : resolve lodgings with
  | error e =>
    rw [h] at hok
    cases hok
  | ok s =>
    refine ⟨s, rfl, hancestor, ?_⟩
    rw [← hname] at hancestor ⊢
    exact substitutable_of_resolve h hd hancestor

end RecordDefinitions
