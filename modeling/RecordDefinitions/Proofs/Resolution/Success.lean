import RecordDefinitions.Proofs.Resolution.Memory

/-!
# When a registry resolves

There are four reasons why resolving fails: parents that are missing or go round, an
override that does not fit, a type that names nothing, and a definition that stands
inside itself. Without any of them every definition is resolved.
-/

namespace RecordDefinitions

open Relation

namespace Registry

variable {r : Registry}

/-- None of the four reasons against resolving a registry. -/
structure Resolvable (r : Registry) : Prop where
  /-- Parents are registered, and following them repeats no name. -/
  rooted : ∀ d ∈ r.toList, r.Rooted d.name
  /-- Own fields fit the inherited fields that they replace. -/
  overrides : ∀ d ∈ r.toList, r.OverridesFit d
  /-- The types of own fields name registered definitions. -/
  known : ∀ d ∈ r.toList, ∀ f ∈ d.fields.toList, ∀ n ∈ f.type.references, r.contains n
  /-- The types of flattened fields lead from no definition back to it. -/
  acyclic : ∀ n, ¬ TransGen r.Mentions n n

theorem Flattened.contains {name : String} {f : Field} (h : r.Flattened name f) :
    r.contains name := by
  cases h with
  | own hd _ => exact Catalogue.contains_of_find? hd
  | inherited hd _ _ _ => exact Catalogue.contains_of_find? hd

theorem Mentions.contains {name mentioned : String} (h : r.Mentions name mentioned) :
    r.contains name := by
  obtain ⟨f, hf, _⟩ := h
  exact hf.contains

theorem exists_mem_of_contains {name : String} (h : r.contains name) :
    ∃ d ∈ r.toList, d.name = name := by
  obtain ⟨d, hd⟩ := Option.isSome_iff_exists.mp h
  exact ⟨d, Catalogue.find?_eq_some_iff.mp hd⟩

theorem resolved_eq_ok_iff {name : String} {d : ResolvedDefinition} :
    r.resolved name = .ok d ↔
      ∃ names, r.find? name = some d.definition ∧ r.chain name = .ok names ∧
        d.ancestors = names.dropLast ∧ r.flatFields name = .ok d.fields ∧
        r.shape name = .ok d.shape := by
  simp only [resolved, bind_eq_ok_iff, get_eq_ok_iff]
  constructor
  · rintro ⟨definition, hd, names, hchain, fields, hfields, shape, hshape, h⟩
    cases h
    exact ⟨names, hd, hchain, rfl, hfields, hshape⟩
  · rintro ⟨names, hd, hchain, hanc, hfields, hshape⟩
    refine ⟨_, hd, names, hchain, _, hfields, _, hshape, ?_⟩
    rw [← hanc]
    rfl

/-- A definition that is resolved has no part in the four reasons. -/
theorem resolvable_of_resolved (h : ∀ d ∈ r.toList, ∃ a, r.resolved d.name = .ok a) :
    r.Resolvable where
  rooted := by
    intro d hd
    obtain ⟨a, ha⟩ := h d hd
    obtain ⟨names, -, hchain, -⟩ := resolved_eq_ok_iff.mp ha
    exact exists_chain_iff.mp ⟨names, hchain⟩
  overrides := by
    intro d hd
    obtain ⟨a, ha⟩ := h d hd
    obtain ⟨-, -, -, -, hfields, -⟩ := resolved_eq_ok_iff.mp ha
    exact overridesFit_of_flatFields hd hfields
  known := by
    intro d hd f hf n hn
    obtain ⟨a, ha⟩ := h d hd
    obtain ⟨-, -, -, -, -, hshape⟩ := resolved_eq_ok_iff.mp ha
    have hmentions : r.Mentions d.name n := ⟨f, .own (find?_of_mem hd) hf, hn⟩
    exact (reaches_of_expand hshape (.single hmentions)).1
  acyclic := by
    intro n hcycle
    obtain ⟨next, hnext, -⟩ := TransGen.head'_iff.mp hcycle
    obtain ⟨d, hd, rfl⟩ := exists_mem_of_contains hnext.contains
    obtain ⟨a, ha⟩ := h d hd
    obtain ⟨-, -, -, -, -, hshape⟩ := resolved_eq_ok_iff.mp ha
    exact acyclic_of_expand hshape hcycle

theorem Resolvable.exists_resolved (h : r.Resolvable) {d : Definition} (hd : d ∈ r.toList) :
    ∃ a, r.resolved d.name = .ok a := by
  have hflat (n : String) (hn : r.contains n) : ∃ fields, r.flatFields n = .ok fields := by
    obtain ⟨e, he, rfl⟩ := exists_mem_of_contains hn
    exact exists_flatFields (h.rooted e he) h.overrides
  have hknown (m n : String) (hm : r.Mentions m n) : r.contains n := by
    obtain ⟨f, hf, hn⟩ := hm
    obtain ⟨e, he, hfe⟩ := exists_declaration hf
    exact h.known e he f hfe n hn
  have hroot := h.rooted d hd
  obtain ⟨names, hchain⟩ := exists_chain_iff.mpr hroot
  obtain ⟨fields, hfields⟩ := hflat d.name hroot.contains
  obtain ⟨shape, hshape⟩ := exists_expand hflat hknown h.acyclic hroot.contains (met_start d.name)
  exact ⟨⟨d, fields, names.dropLast, shape⟩,
    resolved_eq_ok_iff.mpr ⟨names, find?_of_mem hd, hchain, rfl, hfields, hshape⟩⟩

end Registry

/-- Resolved definitions stand in the order of their definitions. -/
theorem definitions_of_resolved {r : Registry} {ds : List Definition}
    {resolved : List ResolvedDefinition} (hmem : ∀ d ∈ ds, d ∈ r.toList)
    (h : List.Forall₂ (fun d a => r.resolved d.name = .ok a) ds resolved) :
    resolved.map (·.definition) = ds := by
  induction h with
  | nil => rfl
  | @cons d a ds resolved hd _ ih =>
    obtain ⟨-, hfind, -⟩ := Registry.resolved_eq_ok_iff.mp hd
    rw [Registry.find?_of_mem (hmem d List.mem_cons_self)] at hfind
    cases hfind
    rw [List.map_cons, ih fun e he => hmem e (List.mem_cons_of_mem _ he)]

theorem resolve_eq_ok_iff {r : Registry} {s : ResolvedSet} :
    resolve r = .ok s ↔ List.Forall₂ (fun d a => r.resolved d.name = .ok a) r.toList s.toList := by
  have hlist {resolved : List ResolvedDefinition}
      (h : List.Forall₂ (fun d a => r.resolved d.name = .ok a) r.toList resolved) :
      (Catalogue.ofList resolved).toList = resolved := by
    refine Catalogue.toList_ofList ?_
    have hnames : namesOf resolved = r.names := by
      rw [Catalogue.names, ← definitions_of_resolved (fun _ hd => hd) h, namesOf, namesOf,
        List.map_map]
      rfl
    rw [hnames]
    exact r.nodup
  rw [resolve_eq, map_eq_ok_iff]
  constructor
  · rintro ⟨resolved, hall, rfl⟩
    rw [mapM_eq_ok_iff] at hall
    rwa [hlist hall]
  · intro h
    exact ⟨s.toList, mapM_eq_ok_iff.mpr h, Catalogue.ofList_toList s⟩

/-- A registry resolves if and only if none of the four reasons stands against it, and
then there is one entry for each definition, in the order of registration. -/
theorem resolve_succeeds_iff (r : Registry) :
    ((∃ s, resolve r = .ok s) ↔ r.Resolvable) ∧
      ∀ s, resolve r = .ok s → s.toList.map (·.definition) = r.toList := by
  have hsome : (∃ s, resolve r = .ok s) ↔ ∀ d ∈ r.toList, ∃ a, r.resolved d.name = .ok a := by
    rw [← exists_mapM_eq_ok_iff, resolve_eq]
    simp only [map_eq_ok_iff]
    constructor
    · rintro ⟨_, resolved, h, _⟩
      exact ⟨resolved, h⟩
    · rintro ⟨resolved, h⟩
      exact ⟨_, resolved, h, rfl⟩
  refine ⟨?_, fun s hs => ?_⟩
  · rw [hsome]
    constructor
    · exact Registry.resolvable_of_resolved
    · intro h d hd
      exact h.exists_resolved hd
  · exact definitions_of_resolved (fun _ hd => hd) (resolve_eq_ok_iff.mp hs)

end RecordDefinitions
