import RecordDefinitions.TypeExpr.Assignable

/-!
# Assignability is a preorder

`Accepts` says by rules when a place of one type can hold every value of another, and
`accepts` decides it. A place accepts a union when it accepts every member, and a place
for a union accepts any other type when one of its members does. It follows that
acceptance is transitive where descent is.
-/

namespace RecordDefinitions.TypeExpr

/-- A place of the first type can hold every value of the second. -/
inductive Accepts (descends : Lineage) : TypeExpr → TypeExpr → Prop
  | refl (a : TypeExpr) : Accepts descends a a
  | members {a : TypeExpr} {members : List TypeExpr} :
    (∀ m ∈ members, Accepts descends a m) → Accepts descends a (union members)
  | member {members : List TypeExpr} {m b : TypeExpr} :
    m ∈ members → b.isUnion = false → Accepts descends m b → Accepts descends (union members) b
  | scalar {kind : ScalarKind} {b : TypeExpr} :
    b.isUnion = false → scalarAccepts kind b → Accepts descends (scalar kind) b
  | definition {ancestor child : String} :
    descends child ancestor → Accepts descends (definition ancestor) (definition child)
  | list {a b : TypeExpr} : Accepts descends a b → Accepts descends (list a) (list b)
  | map {a b : TypeExpr} : Accepts descends a b → Accepts descends (map a) (map b)
  | mapOfList {a b : TypeExpr} : Accepts descends a b → Accepts descends (map a) (list b)

variable {descends : Lineage}

/-! ## The decision -/

theorem isUnion_eq_false_iff {b : TypeExpr} :
    b.isUnion = false ↔ ∀ members, b = union members → False := by
  cases b <;> simp [isUnion]

theorem accepts_self (a : TypeExpr) : accepts descends a a := by
  unfold accepts
  rw [if_pos rfl]

/-- Only types that differ are compared by their parts. -/
theorem accepts_of_ne {a b : TypeExpr} (h : a ≠ b → accepts descends a b) :
    accepts descends a b := by
  by_cases hab : a = b
  · rw [hab]
    exact accepts_self b
  · exact h hab

theorem accepts_of_rules {a b : TypeExpr} (h : Accepts descends a b) : accepts descends a b := by
  induction h with
  | refl a => exact accepts_self a
  | members _ ih =>
    refine accepts_of_ne fun hne => ?_
    unfold accepts
    rw [if_neg hne]
    exact List.all_eq_true.mpr fun m _ => ih m.1 m.2
  | @member members m b hm hb _ ih =>
    refine accepts_of_ne fun hne => ?_
    rw [accepts, if_neg hne]
    · exact List.any_eq_true.mpr ⟨⟨m, hm⟩, List.mem_attach _ _, ih⟩
    · exact isUnion_eq_false_iff.mp hb
  | scalar hb h =>
    refine accepts_of_ne fun hne => ?_
    rw [accepts, if_neg hne]
    · exact h
    · exact isUnion_eq_false_iff.mp hb
  | definition h =>
    refine accepts_of_ne fun hne => ?_
    rw [accepts, if_neg hne]
    exact h
  | list _ ih =>
    refine accepts_of_ne fun hne => ?_
    rw [accepts, if_neg hne]
    exact ih
  | map _ ih =>
    refine accepts_of_ne fun hne => ?_
    rw [accepts, if_neg hne]
    exact ih
  | mapOfList _ ih =>
    refine accepts_of_ne fun hne => ?_
    rw [accepts, if_neg hne]
    exact ih

theorem rules_of_accepts {a b : TypeExpr} (h : accepts descends a b) : Accepts descends a b := by
  fun_induction accepts descends a b with
  | case1 => exact .refl _
  | case2 a members _ ih =>
    exact .members fun m hm => ih ⟨m, hm⟩ (List.all_eq_true.mp h ⟨m, hm⟩ (List.mem_attach _ _))
  | case3 members b hb _ ih =>
    obtain ⟨m, _, hm⟩ := List.any_eq_true.mp h
    exact .member m.2 (isUnion_eq_false_iff.mpr hb) (ih m hm)
  | case4 kind b hb _ => exact .scalar (isUnion_eq_false_iff.mpr hb) h
  | case5 => exact .definition h
  | case6 _ _ _ ih => exact .map (ih h)
  | case7 _ _ _ ih => exact .mapOfList (ih h)
  | case8 _ _ _ ih => exact .list (ih h)
  | case9 => cases h

/-! ## Transitivity -/

namespace Accepts

variable {a b c : TypeExpr}

/-- A union accepts what one of its members accepts, so a step from one type that is no
union to another needs to be looked at for places that are no unions only. -/
theorem of_single (hb : b.isUnion = false) (hc : c.isUnion = false)
    (hstep : ∀ a, a.isUnion = false → Accepts descends a b → Accepts descends a c)
    (h : Accepts descends a b) : Accepts descends a c := by
  induction h with
  | refl a => exact hstep a hb (.refl a)
  | members _ _ => cases hb
  | member hm _ _ ih => exact .member hm hc (ih hb hstep)
  | scalar hb' h => exact hstep _ rfl (.scalar hb' h)
  | definition h => exact hstep _ rfl (.definition h)
  | list h _ => exact hstep _ rfl (.list h)
  | map h _ => exact hstep _ rfl (.map h)
  | mapOfList h _ => exact hstep _ rfl (.mapOfList h)

/-- A place that accepts a union is that union or accepts every member. -/
theorem of_union {members : List TypeExpr} (h : Accepts descends a (union members)) :
    a = union members ∨ ∀ m ∈ members, Accepts descends a m := by
  cases h with
  | refl => exact Or.inl rfl
  | members h => exact Or.inr h
  | member _ hb _ => cases hb
  | scalar hb _ => cases hb

/-- What a scalar accepts beside itself accepts nothing that the scalar does not. -/
theorem of_scalar {kind : ScalarKind} (hc : c.isUnion = false) (hbc : Accepts descends b c)
    (h : scalarAccepts kind b) : Accepts descends (.scalar kind) c := by
  refine .scalar hc ?_
  cases hbc with
  | refl => exact h
  | members _ => cases hc
  | @scalar inner _ _ _ => cases kind <;> cases inner <;> simp_all [scalarAccepts]
  | _ => cases kind <;> simp_all [scalarAccepts]

theorem trans (hdescends : ∀ x y z, descends x y → descends y z → descends x z)
    (hab : Accepts descends a b) (hbc : Accepts descends b c) : Accepts descends a c := by
  induction hbc generalizing a with
  | refl b => exact hab
  | members _ ih => exact .members fun m hm => ih m hm hab
  | member hm hc hmc ih =>
    rcases hab.of_union with rfl | hab
    · exact .member hm hc hmc
    · exact ih (hab _ hm)
  | scalar hc hkind =>
    refine of_single rfl hc (fun a ha hab => ?_) hab
    cases hab with
    | refl => exact .scalar hc hkind
    | member _ _ _ => cases ha
    | scalar _ h => exact of_scalar hc (.scalar hc hkind) h
  | definition hchild =>
    refine of_single rfl rfl (fun a ha hab => ?_) hab
    cases hab with
    | refl => exact .definition hchild
    | member _ _ _ => cases ha
    | scalar _ h => exact of_scalar rfl (.definition hchild) h
    | definition h => exact .definition (hdescends _ _ _ hchild h)
  | list hbc ih =>
    refine of_single rfl rfl (fun a ha hab => ?_) hab
    cases hab with
    | refl => exact .list hbc
    | member _ _ _ => cases ha
    | scalar _ h => exact of_scalar rfl (.list hbc) h
    | list h => exact .list (ih h)
    | mapOfList h => exact .mapOfList (ih h)
  | map hbc ih =>
    refine of_single rfl rfl (fun a ha hab => ?_) hab
    cases hab with
    | refl => exact .map hbc
    | member _ _ _ => cases ha
    | scalar _ h => exact of_scalar rfl (.map hbc) h
    | map h => exact .map (ih h)
  | mapOfList hbc ih =>
    refine of_single rfl rfl (fun a ha hab => ?_) hab
    cases hab with
    | refl => exact .mapOfList hbc
    | member _ _ _ => cases ha
    | scalar _ h => exact of_scalar rfl (.mapOfList hbc) h
    | map h => exact .mapOfList (ih h)

end Accepts

/-- Acceptance is transitive under every lineage that is. -/
theorem accepts_trans (hdescends : ∀ x y z, descends x y → descends y z → descends x z)
    {a b c : TypeExpr} (hab : accepts descends a b) (hbc : accepts descends b c) :
    accepts descends a c :=
  accepts_of_rules ((rules_of_accepts hab).trans hdescends (rules_of_accepts hbc))

end RecordDefinitions.TypeExpr
