import RecordDefinitions.Proofs.TypeExpr.Joins

/-!
# Unions of groups

A union of types does not depend on how the types are grouped: whether some of them are joined
first, and in which groups, the union is the same. Its members are the types that are written in
the groups, each where it first comes, and a single type that is left stands for itself.
-/

namespace RecordDefinitions.TypeExpr

open Inference (FirstOccurrences firstOccurrences_distinct distinct_flatMap_distinct)

variable {types : List TypeExpr} {groups : List (List TypeExpr)}

/-- At least one type stands for something. -/
theorem WellFormed.distinct_ne_nil (hne : types ≠ []) (h : ∀ t ∈ types, WellFormed t) :
    distinct (types.flatMap alternatives) ≠ [] := by
  obtain ⟨t, ht⟩ := List.exists_mem_of_ne_nil types hne
  obtain ⟨m, hm⟩ := (h t ht).exists_mem_alternatives
  exact List.ne_nil_of_mem (mem_distinct_alternatives.mpr ⟨t, ht, hm⟩)

/-- A union stands for what its types stand for, each where it first comes. -/
theorem WellFormed.alternatives_unionOf (hne : types ≠ []) (h : ∀ t ∈ types, WellFormed t) :
    (TypeExpr.unionOf types).alternatives = distinct (types.flatMap alternatives) := by
  rcases unionOf_cases types with ⟨hnone, -⟩ | ⟨t, hone, heq⟩ | ⟨-, heq⟩
  · exact absurd hnone (distinct_ne_nil hne h)
  · have ht : t.isUnion = false := (of_mem_distinct h (hone ▸ List.mem_singleton.mpr rfl)).2
    rw [heq, hone, alternatives_of_single ht]
  · rw [heq]
    rfl

/-- The groups may be joined first: the unions of the groups stand for what the groups do. -/
theorem unionOf_map_unionOf (hne : ∀ g ∈ groups, g ≠ [])
    (h : ∀ g ∈ groups, ∀ t ∈ g, WellFormed t) :
    unionOf (groups.map unionOf) = unionOf groups.flatten := by
  have hgroups : (groups.map unionOf).flatMap alternatives =
      groups.flatMap fun g => distinct (g.flatMap alternatives) := by
    rw [List.flatMap_map]
    exact List.flatMap_congr fun g hg => WellFormed.alternatives_unionOf (hne g hg) (h g hg)
  have hflat : groups.flatten.flatMap alternatives =
      groups.flatMap fun g => g.flatMap alternatives := by
    rw [List.flatten_eq_flatMap, List.flatMap_assoc]
    rfl
  have hsame : distinct ((groups.map unionOf).flatMap alternatives) =
      distinct (groups.flatten.flatMap alternatives) := by
    rw [hgroups, hflat]
    exact distinct_flatMap_distinct _ groups
  rw [unionOf, unionOf, hsame]

/-- A union is one type or has several members, which are those that are written in its types. -/
theorem unionOf_single_or_several (h : ∀ t ∈ types, WellFormed t) :
    ((unionOf types).isUnion = false ∧
        (types ≠ [] → ∀ m, m ∈ types.flatMap alternatives ↔ m = unionOf types)) ∨
      ∃ members, unionOf types = union members ∧ 2 ≤ members.length ∧
        (∀ m ∈ members, m.isUnion = false) ∧
        FirstOccurrences (types.flatMap alternatives) members := by
  have hfirst : FirstOccurrences (types.flatMap alternatives)
      (distinct (types.flatMap alternatives)) := firstOccurrences_distinct _
  rcases unionOf_cases types with ⟨hnone, heq⟩ | ⟨t, hone, heq⟩ | ⟨hseveral, heq⟩
  · left
    refine ⟨by rw [heq]; rfl, fun hne => ?_⟩
    exact absurd hnone (WellFormed.distinct_ne_nil hne h)
  · left
    have hmem : t ∈ distinct (types.flatMap alternatives) := hone ▸ List.mem_singleton.mpr rfl
    rw [heq]
    refine ⟨(WellFormed.of_mem_distinct h hmem).2, fun _ m => ?_⟩
    rw [← hfirst.mem_iff, hone, List.mem_singleton]
  · right
    exact ⟨_, heq, hseveral, fun m hm => (WellFormed.of_mem_distinct h hm).2, hfirst⟩

/-- Joining groups of types and then the results gives the union of all types in the groups. That
is one type and no union, or the union of the several types that are written in the groups, in the
order in which they first come. -/
theorem unionOf_groups (hne : ∀ g ∈ groups, g ≠ []) (h : ∀ g ∈ groups, ∀ t ∈ g, WellFormed t) :
    unionOf (groups.map unionOf) = unionOf groups.flatten ∧
      (((unionOf groups.flatten).isUnion = false ∧
          (groups ≠ [] →
            ∀ m, m ∈ groups.flatten.flatMap alternatives ↔ m = unionOf groups.flatten)) ∨
        ∃ members, unionOf groups.flatten = union members ∧ 2 ≤ members.length ∧
          (∀ m ∈ members, m.isUnion = false) ∧
          FirstOccurrences (groups.flatten.flatMap alternatives) members) := by
  refine ⟨unionOf_map_unionOf hne h, ?_⟩
  have hall : ∀ t ∈ groups.flatten, WellFormed t := by
    intro t ht
    obtain ⟨g, hg, ht⟩ := List.mem_flatten.mp ht
    exact h g hg t ht
  rcases unionOf_single_or_several hall with ⟨hsingle, hone⟩ | hseveral
  · refine Or.inl ⟨hsingle, fun hgroups => hone ?_⟩
    obtain ⟨g, hg⟩ := List.exists_mem_of_ne_nil groups hgroups
    obtain ⟨t, ht⟩ := List.exists_mem_of_ne_nil g (hne g hg)
    exact List.ne_nil_of_mem (List.mem_flatten.mpr ⟨g, hg, ht⟩)
  · exact Or.inr hseveral

/-- A group that comes down to one type, and one that holds a union with a type of the other. -/
def priceTypes : List (List TypeExpr) :=
  [[scalar .int, scalar .int], [union [scalar .string, scalar .int], definition "Money"]]

theorem wellFormed_priceTypes : ∀ g ∈ priceTypes, ∀ t ∈ g, WellFormed t := by
  have hunion : WellFormed (union [scalar .string, scalar .int]) :=
    .union (by simp [WellFormed.scalar]) (by decide) (by decide) (by decide)
  simp [priceTypes, WellFormed.scalar, WellFormed.definition, hunion]

theorem unionOf_groups_priceTypes :
    (∀ g ∈ priceTypes, g ≠ []) ∧ (∀ g ∈ priceTypes, ∀ t ∈ g, WellFormed t) ∧
      priceTypes.map unionOf =
        [scalar .int, union [scalar .string, scalar .int, definition "Money"]] ∧
      unionOf (priceTypes.map unionOf) =
        union [scalar .int, scalar .string, definition "Money"] ∧
      FirstOccurrences (priceTypes.flatten.flatMap alternatives)
        [scalar .int, scalar .string, definition "Money"] := by
  have hne : ∀ g ∈ priceTypes, g ≠ [] := by decide
  have hunion : unionOf priceTypes.flatten =
      union [scalar .int, scalar .string, definition "Money"] := by decide
  obtain ⟨hgroups, ⟨hsingle, -⟩ | ⟨members, hmembers, -, -, hfirst⟩⟩ :=
    unionOf_groups hne wellFormed_priceTypes
  · rw [hunion] at hsingle
    cases hsingle
  · rw [hunion] at hmembers
    obtain rfl := union.inj hmembers
    exact ⟨hne, wellFormed_priceTypes, by decide, hgroups.trans hunion, hfirst⟩

end RecordDefinitions.TypeExpr
