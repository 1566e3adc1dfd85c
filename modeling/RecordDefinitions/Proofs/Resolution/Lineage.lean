import RecordDefinitions.Proofs.Inheritance.Declarers
import RecordDefinitions.Proofs.Resolution.Sets

/-!
# The lineage of a resolved set

A registry answers who descends from whom by following parents, a resolved set by looking into
the ancestors that it has stored. Both answers say whether some number of parents leads from the
one name to the other, for names that are registered and for names that are not.
-/

namespace RecordDefinitions

open Relation

variable {r : Registry} {s : ResolvedSet}

/-- The stored ancestors of a definition are those that following parents leads to. -/
theorem mem_ancestors_iff (h : resolve r = .ok s) {d : ResolvedDefinition} (hd : d ∈ s.toList)
    {ancestor : String} : ancestor ∈ d.ancestors ↔ TransGen r.IsParent d.name ancestor := by
  obtain ⟨names, -, hchain, hancestors, -⟩ :=
    Registry.resolved_eq_ok_iff.mp (resolved_of_mem h hd)
  obtain ⟨above, hascends, rfl⟩ := Registry.chain_eq_ok_iff.mp hchain
  have hlist : d.ancestors = above.reverse := by
    rw [hancestors, List.reverse_cons, List.dropLast_concat]
  rw [hlist, List.mem_reverse]
  constructor
  · exact hascends.transGen_of_mem
  · exact hascends.mem_of_transGen

/-- A name that is not registered has no parent. -/
theorem Registry.eq_of_reflTransGen {child ancestor : String} (hchild : ¬ r.contains child)
    (h : ReflTransGen r.IsParent child ancestor) : child = ancestor := by
  rcases ReflTransGen.cases_head h with heq | ⟨parent, hparent, -⟩
  · exact heq
  · exact absurd hparent.contains hchild

/-- Descent by the resolved set is descent by any number of parents in the registry. -/
theorem ResolvedSet.lineage_iff (h : resolve r = .ok s) {child ancestor : String} :
    s.lineage child ancestor ↔ ReflTransGen r.IsParent child ancestor := by
  rw [lineage, Bool.or_eq_true, beq_iff_eq]
  by_cases hchild : r.contains child
  · obtain ⟨d, hfind, -⟩ := exists_find?_of_resolve h hchild
    obtain ⟨hd, hname⟩ := Catalogue.find?_eq_some_iff.mp hfind
    obtain rfl : d.name = child := hname
    rw [hfind, Option.any_some, List.contains_iff_mem, mem_ancestors_iff h hd,
      reflTransGen_iff_eq_or_transGen, eq_comm]
  · have hnone : s.find? child = none := by
      by_contra hsome
      obtain ⟨d, hfind⟩ := Option.ne_none_iff_exists'.mp hsome
      obtain ⟨hd, hname⟩ := Catalogue.find?_eq_some_iff.mp hfind
      obtain rfl : d.name = child := hname
      exact hchild (Catalogue.contains_of_find? (parts_of_mem h hd).1)
    rw [hnone, Option.any_none]
    constructor
    · rintro (rfl | hfalse)
      · exact .refl
      · cases hfalse
    · intro hway
      exact Or.inl (Registry.eq_of_reflTransGen hchild hway)

/-- The set that a registry resolves to knows who descends from whom exactly as the registry does,
whatever the names are, and so a type accepts under the one lineage what it accepts under the
other. -/
theorem lineage_eq_of_resolve (h : resolve r = .ok s) :
    (∀ child ancestor, s.lineage child ancestor = r.lineage child ancestor) ∧
      ∀ a b, TypeExpr.accepts s.lineage a b = TypeExpr.accepts r.lineage a b := by
  have hlineage : ∀ child ancestor, s.lineage child ancestor = r.lineage child ancestor := by
    intro child ancestor
    rw [Bool.eq_iff_iff, ResolvedSet.lineage_iff h, Registry.lineage_iff]
  have hsame : s.lineage = r.lineage := funext₂ hlineage
  exact ⟨hlineage, fun a b => by rw [hsame]⟩

/-- Descent over two steps, in the other direction, and of names that nothing is registered for. -/
theorem lineage_eq_of_resolve_lodgings : ∃ s, resolve lodgings = .ok s ∧
    s.lineage "Farm" "Flat" ∧ ¬ s.lineage "Flat" "Farm" ∧
      s.lineage "Shed" "Shed" ∧ ¬ s.lineage "Shed" "Flat" ∧
      TypeExpr.accepts s.lineage (.union [.definition "Flat", .scalar .float])
        (.union [.scalar .int, .definition "House", .definition "Farm"]) := by
  have hok : (resolve lodgings).isOk := by decide +kernel
  obtain ⟨s, h⟩ := exists_of_isOk hok
  obtain ⟨hlineage, haccepts⟩ := lineage_eq_of_resolve h
  refine ⟨s, h, ?_⟩
  simp only [hlineage, haccepts]
  decide +kernel

end RecordDefinitions
