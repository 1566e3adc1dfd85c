import RecordDefinitions.Proofs.Inheritance.Ancestors

/-!
# The lineage of a registry

The lineage follows parents up to a bound. It holds between two names if and only if
some number of parents leads from the one to the other, also where parents go round or
are missing: a way that repeats no name is no longer than the number of definitions.
-/

namespace RecordDefinitions.Registry

open Relation

/-- Following parents leads from a name to the ancestor. The path lists the names on the
way, without the ancestor. -/
inductive Way (r : Registry) (ancestor : String) : String → List String → Prop
  | here : Way r ancestor ancestor []
  | up {child parent : String} {path : List String} :
    r.IsParent child parent → Way r ancestor parent path → Way r ancestor child (child :: path)

variable {r : Registry} {ancestor : String}

theorem IsParent.contains {child parent : String} (h : r.IsParent child parent) :
    r.contains child := by
  obtain ⟨d, hd, -⟩ := Option.bind_eq_some_iff.mp h
  exact Catalogue.contains_of_find? hd

theorem Way.contains {child : String} {path : List String} (h : r.Way ancestor child path) :
    ∀ p ∈ path, r.contains p := by
  induction h with
  | here => simp
  | up hparent _ ih => exact List.forall_mem_cons.mpr ⟨hparent.contains, ih⟩

/-- The end of a way is the way from each name on it. -/
theorem Way.shorter {child p : String} {path : List String} (h : r.Way ancestor child path)
    (hp : p ∈ path) : ∃ rest, r.Way ancestor p rest ∧ rest.Sublist path := by
  induction h with
  | here => cases hp
  | @up child parent path hparent hway ih =>
    rcases List.mem_cons.mp hp with rfl | hp
    · exact ⟨_, .up hparent hway, .refl _⟩
    · obtain ⟨rest, hrest, hsub⟩ := ih hp
      exact ⟨rest, hrest, hsub.cons _⟩

theorem exists_way {child : String} (h : ReflTransGen r.IsParent child ancestor) :
    ∃ path, r.Way ancestor child path ∧ path.Nodup := by
  induction h using ReflTransGen.head_induction_on with
  | refl => exact ⟨[], .here, List.nodup_nil⟩
  | @head child parent hparent _ ih =>
    obtain ⟨path, hway, hnodup⟩ := ih
    by_cases hm : child ∈ path
    · obtain ⟨rest, hrest, hsub⟩ := hway.shorter hm
      exact ⟨rest, hrest, hnodup.sublist hsub⟩
    · exact ⟨child :: path, .up hparent hway, List.nodup_cons.mpr ⟨hm, hnodup⟩⟩

theorem Way.meets {child : String} {path : List String} {steps : Nat}
    (h : r.Way ancestor child path) (hlen : path.length ≤ steps) :
    r.meets ancestor steps child := by
  induction h generalizing steps with
  | here =>
    unfold Registry.meets
    simp
  | @up child parent path hparent _ ih =>
    cases steps with
    | zero => cases hlen
    | succ steps =>
      have hrest := ih (Nat.le_of_succ_le_succ hlen)
      unfold Registry.meets
      rw [hparent]
      simp [hrest]

theorem reflTransGen_of_meets {steps : Nat} {child : String} (h : r.meets ancestor steps child) :
    ReflTransGen r.IsParent child ancestor := by
  induction steps generalizing child with
  | zero =>
    simp only [meets, Bool.or_false, beq_iff_eq] at h
    rw [h]
  | succ steps ih =>
    unfold meets at h
    rw [Bool.or_eq_true, beq_iff_eq] at h
    rcases h with rfl | h
    · exact .refl
    · cases hparent : r.parentOf? child with
      | none =>
        rw [hparent] at h
        cases h
      | some parent =>
        rw [hparent] at h
        exact .head hparent (ih h)

/-- Descent by the registry is descent by any number of parents. -/
theorem lineage_iff {child ancestor : String} :
    r.lineage child ancestor ↔ ReflTransGen r.IsParent child ancestor := by
  constructor
  · exact reflTransGen_of_meets
  · intro h
    obtain ⟨path, hway, hnodup⟩ := exists_way h
    exact hway.meets (length_le_size hnodup hway.contains)

theorem lineage_trans (r : Registry) (x y z : String) (hxy : r.lineage x y)
    (hyz : r.lineage y z) : r.lineage x z :=
  lineage_iff.mpr ((lineage_iff.mp hxy).trans (lineage_iff.mp hyz))

end RecordDefinitions.Registry
