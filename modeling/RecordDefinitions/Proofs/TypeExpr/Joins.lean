import RecordDefinitions.Proofs.Inheritance.Lineage
import RecordDefinitions.Proofs.TypeExpr.Assignable
import RecordDefinitions.Proofs.TypeExpr.Normal

/-!
# Unions are joins

Types are ordered by which places can hold their values: every type accepts itself, and
acceptance is transitive where descent is. In this order the union of some types is the least
type that accepts all of them, because a place accepts a union when it accepts each of its
members. A registry, whatever its parents are, has a lineage under which this holds.
-/

namespace RecordDefinitions.TypeExpr

/-- A descendant of a descendant is a descendant. -/
def Lineage.Transitive (descends : Lineage) : Prop :=
  ∀ x y z, descends x y → descends y z → descends x z

/-- Types in which every union holds several types that differ and are no unions themselves,
whatever names they hold. -/
inductive WellFormed : TypeExpr → Prop
  | scalar (kind : ScalarKind) : WellFormed (scalar kind)
  | definition (name : String) : WellFormed (definition name)
  | external (path : String) : WellFormed (external path)
  | list {element : TypeExpr} : WellFormed element → WellFormed (list element)
  | map {element : TypeExpr} : WellFormed element → WellFormed (map element)
  | union {members : List TypeExpr} (hmembers : ∀ m ∈ members, WellFormed m)
    (hsingle : ∀ m ∈ members, m.isUnion = false) (hnodup : members.Nodup)
    (hseveral : 2 ≤ members.length) : WellFormed (union members)

variable {descends : Lineage} {types : List TypeExpr} {a t m : TypeExpr}

namespace WellFormed

theorem of_readable (h : Readable t) : WellFormed t := by
  induction h with
  | scalar kind => exact .scalar kind
  | definition _ => exact .definition _
  | external _ => exact .external _
  | list _ ih => exact .list ih
  | map _ ih => exact .map ih
  | union _ hsingle hnodup hseveral ih => exact .union ih hsingle hnodup hseveral

theorem of_mem_alternatives (h : WellFormed t) (hm : m ∈ t.alternatives) :
    WellFormed m ∧ m.isUnion = false := by
  cases h with
  | union hmembers hsingle _ _ => exact ⟨hmembers m hm, hsingle m hm⟩
  | scalar kind =>
    rw [List.mem_singleton.mp hm]
    exact ⟨.scalar kind, rfl⟩
  | definition name =>
    rw [List.mem_singleton.mp hm]
    exact ⟨.definition name, rfl⟩
  | external path =>
    rw [List.mem_singleton.mp hm]
    exact ⟨.external path, rfl⟩
  | list helement =>
    rw [List.mem_singleton.mp hm]
    exact ⟨.list helement, rfl⟩
  | map helement =>
    rw [List.mem_singleton.mp hm]
    exact ⟨.map helement, rfl⟩

theorem exists_mem_alternatives (h : WellFormed t) : ∃ m, m ∈ t.alternatives := by
  cases h with
  | union _ _ _ hseveral =>
    exact List.exists_mem_of_length_pos (Nat.lt_of_lt_of_le Nat.two_pos hseveral)
  | _ => exact ⟨_, List.mem_singleton.mpr rfl⟩

/-- What types stand for together is well-formed and no union. -/
theorem of_mem_distinct (h : ∀ t ∈ types, WellFormed t)
    (hm : m ∈ distinct (types.flatMap alternatives)) : WellFormed m ∧ m.isUnion = false := by
  obtain ⟨t, ht, hm⟩ := mem_distinct_alternatives.mp hm
  exact (h t ht).of_mem_alternatives hm

theorem unionOf (h : ∀ t ∈ types, WellFormed t) : WellFormed (unionOf types) := by
  rcases unionOf_cases types with ⟨_, heq⟩ | ⟨t, hone, heq⟩ | ⟨hseveral, heq⟩
  · rw [heq]
    exact .scalar .mixed
  · rw [heq]
    exact (of_mem_distinct h (hone ▸ List.mem_singleton.mpr rfl)).1
  · rw [heq]
    exact .union (fun _ hm => (of_mem_distinct h hm).1) (fun _ hm => (of_mem_distinct h hm).2)
      (Inference.nodup_distinct _) hseveral

/-- A union of at least one type stands for what the types stand for. -/
theorem mem_alternatives_unionOf (hne : types ≠ []) (h : ∀ t ∈ types, WellFormed t) :
    m ∈ (TypeExpr.unionOf types).alternatives ↔ ∃ t ∈ types, m ∈ t.alternatives := by
  rw [← mem_distinct_alternatives]
  rcases unionOf_cases types with ⟨hnone, -⟩ | ⟨t, hone, heq⟩ | ⟨_, heq⟩
  · obtain ⟨t, ht⟩ := List.exists_mem_of_ne_nil types hne
    obtain ⟨member, hmember⟩ := (h t ht).exists_mem_alternatives
    have hmem := mem_distinct_alternatives.mpr ⟨t, ht, hmember⟩
    rw [hnone] at hmem
    cases hmem
  · have ht : t.isUnion = false := (of_mem_distinct h (hone ▸ List.mem_singleton.mpr rfl)).2
    rw [heq, hone, alternatives_of_single ht]
  · rw [heq]
    rfl

end WellFormed

/-- A type is accepted where everything that it stands for is. A union is also accepted by itself,
but then it accepts each of its members. -/
theorem accepts_iff_alternatives (h : WellFormed t) :
    accepts descends a t ↔ ∀ m ∈ t.alternatives, accepts descends a m := by
  cases t with
  | union members =>
    constructor
    · intro haccepts m hm
      have hsingle : m.isUnion = false := (h.of_mem_alternatives hm).2
      rcases (rules_of_accepts haccepts).of_union with rfl | hmembers
      · exact accepts_of_rules (.member hm hsingle (.refl m))
      · exact accepts_of_rules (hmembers m hm)
    · intro hmembers
      exact accepts_of_rules (.members fun m hm => rules_of_accepts (hmembers m hm))
  | _ => simp [alternatives]

/-- A place accepts a union if and only if it accepts each of the types. -/
theorem accepts_unionOf (hne : types ≠ []) (h : ∀ t ∈ types, WellFormed t) :
    accepts descends a (unionOf types) ↔ ∀ t ∈ types, accepts descends a t := by
  rw [accepts_iff_alternatives (.unionOf h)]
  constructor
  · intro hunion t ht
    rw [accepts_iff_alternatives (h t ht)]
    intro m hm
    exact hunion m ((WellFormed.mem_alternatives_unionOf hne h).mpr ⟨t, ht, hm⟩)
  · intro htypes m hm
    obtain ⟨t, ht, hm⟩ := (WellFormed.mem_alternatives_unionOf hne h).mp hm
    exact (accepts_iff_alternatives (h t ht)).mp (htypes t ht) m hm

/-- Under a transitive lineage acceptance is a preorder in which the union of well-formed types
is their least upper bound. The lineage of every registry is transitive, and every type that is read
is well-formed. -/
theorem accepts_preorder_unionOf_join :
    (∀ descends : Lineage, descends.Transitive →
      (∀ t, accepts descends t t) ∧
      (∀ a b c, accepts descends a b → accepts descends b c → accepts descends a c) ∧
      ∀ types, types ≠ [] → (∀ t ∈ types, WellFormed t) →
        WellFormed (unionOf types) ∧
        ∀ a, accepts descends a (unionOf types) ↔ ∀ t ∈ types, accepts descends a t) ∧
    (∀ r : Registry, Lineage.Transitive r.lineage) ∧
    ∀ text t, read text = .ok t → WellFormed t := by
  refine ⟨fun descends hdescends => ⟨accepts_self, ?_, ?_⟩, Registry.lineage_trans,
    fun text t ht => .of_readable (readable_of_read ht)⟩
  · intro a b c hab hbc
    exact accepts_trans hdescends hab hbc
  · intro types hne h
    exact ⟨.unionOf h, fun a => accepts_unionOf hne h⟩

/-- Two definitions that are each other's parent, and one whose parent is missing. -/
def kennel : Registry := Catalogue.ofList
  [⟨"Cat", some "Pet", false, .empty⟩, ⟨"Pet", some "Cat", false, .empty⟩,
    ⟨"Stray", some "Owner", false, .empty⟩]

/-- A union, a member of it once more and a list. -/
def kennelTypes : List TypeExpr :=
  [union [definition "Cat", scalar .int], scalar .int, list (definition "Stray")]

theorem wellFormed_kennelTypes : ∀ t ∈ kennelTypes, WellFormed t := by
  refine List.forall_mem_cons.mpr ⟨?_, List.forall_mem_cons.mpr ⟨.scalar .int, ?_⟩⟩
  · exact .union (List.forall_mem_cons.mpr ⟨.definition "Cat", by simp [WellFormed.scalar]⟩)
      (by decide) (by decide) (by decide)
  · exact List.forall_mem_cons.mpr ⟨.list (.definition "Stray"), by simp⟩

theorem accepts_preorder_unionOf_join_kennel :
    Lineage.Transitive kennel.lineage ∧
      unionOf kennelTypes = union [definition "Cat", scalar .int, list (definition "Stray")] ∧
      WellFormed (unionOf kennelTypes) ∧
      accepts kennel.lineage (definition "Pet") (definition "Pet") ∧
      accepts kennel.lineage (union [definition "Pet", scalar .float, scalar .iterable])
        (unionOf kennelTypes) ∧
      ¬ accepts kennel.lineage (union [definition "Pet", scalar .float]) (unionOf kennelTypes) := by
  obtain ⟨hjoin, hlineage, -⟩ := accepts_preorder_unionOf_join
  obtain ⟨hrefl, htrans, hunion⟩ := hjoin _ (hlineage kennel)
  obtain ⟨hwell, hiff⟩ := hunion kennelTypes (by decide) wellFormed_kennelTypes
  refine ⟨hlineage kennel, by decide, hwell, ?_, ?_, ?_⟩
  · exact htrans (definition "Pet") (definition "Cat") (definition "Pet") (by decide +kernel)
      (by decide +kernel)
  · rw [hiff]
    decide +kernel
  · rw [hiff]
    decide +kernel

end RecordDefinitions.TypeExpr
