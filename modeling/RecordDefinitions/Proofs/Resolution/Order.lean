import RecordDefinitions.Proofs.Resolution.Success

/-!
# Registries in the order of mention

A registry without parents, in which every definition names definitions that come later and
no others, resolves: the places of the definitions in the registry grow along every mention.
-/

namespace RecordDefinitions

open Relation

namespace Registry

variable {r : Registry}

/-- Fields name definitions of the registry that stand behind their own. -/
def Ordered (r : Registry) : Prop :=
  ∀ d ∈ r.toList, ∀ f ∈ d.fields.toList, ∀ n ∈ f.type.references,
    r.contains n ∧ r.names.idxOf d.name < r.names.idxOf n

section Unparented

variable (hparent : ∀ d ∈ r.toList, d.parent = none)
include hparent

theorem not_isParent_of_unparented {child parent : String} : ¬ r.IsParent child parent := by
  intro h
  obtain ⟨d, hd, hp⟩ := Option.bind_eq_some_iff.mp h
  have hm := (Catalogue.find?_eq_some_iff.mp hd).1
  rw [hparent d hm] at hp
  cases hp

theorem rooted_of_unparented {d : Definition} (hd : d ∈ r.toList) : r.Rooted d.name := by
  intro ancestor ha
  rcases ReflTransGen.cases_head ha with rfl | ⟨_, hstep, -⟩
  · refine ⟨Catalogue.contains_of_find? (find?_of_mem hd), ?_⟩
    intro hcycle
    obtain ⟨_, hstep, -⟩ := TransGen.head'_iff.mp hcycle
    exact not_isParent_of_unparented hparent hstep
  · exact absurd hstep (not_isParent_of_unparented hparent)

theorem overridesFit_of_unparented {d : Definition} (hd : d ∈ r.toList) : r.OverridesFit d := by
  intro parent hp
  rw [hparent d hd] at hp
  cases hp

/-- Without parents, a definition mentions what its own fields name. -/
theorem exists_own_of_mentions {name mentioned : String} (h : r.Mentions name mentioned) :
    ∃ d ∈ r.toList, d.name = name ∧ ∃ f ∈ d.fields.toList, mentioned ∈ f.type.references := by
  obtain ⟨f, hf, hmentioned⟩ := h
  obtain ⟨d, hd⟩ := Option.isSome_iff_exists.mp hf.contains
  obtain ⟨hm, hname⟩ := Catalogue.find?_eq_some_iff.mp hd
  exact ⟨d, hm, hname, f, (flattened_root_iff hd (hparent d hm)).mp hf, hmentioned⟩

theorem idxOf_lt_of_mentions (hordered : r.Ordered) {name mentioned : String}
    (h : TransGen r.Mentions name mentioned) : r.names.idxOf name < r.names.idxOf mentioned := by
  have hstep {a b : String} (hab : r.Mentions a b) : r.names.idxOf a < r.names.idxOf b := by
    obtain ⟨d, hd, rfl, f, hf, hb⟩ := exists_own_of_mentions hparent hab
    exact (hordered d hd f hf b hb).2
  induction h with
  | single h => exact hstep h
  | tail _ h ih => exact ih.trans (hstep h)

theorem resolvable_of_ordered (hordered : r.Ordered) : r.Resolvable where
  rooted _ hd := rooted_of_unparented hparent hd
  overrides _ hd := overridesFit_of_unparented hparent hd
  known d hd f hf n hn := (hordered d hd f hf n hn).1
  acyclic _ hcycle := Nat.lt_irrefl _ (idxOf_lt_of_mentions hparent hordered hcycle)

end Unparented

end Registry

theorem exists_resolve_of_resolvable {r : Registry} (h : r.Resolvable) : ∃ s, resolve r = .ok s := by
  obtain ⟨resolved, hresolved⟩ :=
    exists_mapM_eq_ok_iff.mpr fun d (hd : d ∈ r.toList) => h.exists_resolved hd
  refine ⟨Catalogue.ofList resolved, ?_⟩
  rw [resolve_eq, map_eq_ok_iff]
  exact ⟨resolved, hresolved, rfl⟩

end RecordDefinitions
