import Mathlib.Data.List.Nodup
import RecordDefinitions.Proofs.Inheritance.Flattening
import RecordDefinitions.Shape.Expansion

/-!
# When a definition has a shape

A definition mentions those that the types of its flattened fields name. It has a
shape if and only if everything that it leads to is registered and nothing on the
way leads back to itself. The bound on the expansion is never met, because the names
on its path are registered and differ.
-/

namespace RecordDefinitions

open Relation

theorem Field.references_containerType (f : Field) :
    f.containerType.references = f.type.references := by
  unfold containerType
  split <;> simp [TypeExpr.references]

section Types

variable {r : Registry} {expand : String → Except Failure Shape} {site : String}

mutual

/-- A type has a shape when every definition that it names is registered and has one. -/
theorem TypeExpr.exists_shapeM_iff : (t : TypeExpr) →
    ((∃ shape, TypeExpr.shapeM r expand site t = .ok shape) ↔
      ∀ n ∈ t.references, r.contains n ∧ ∃ shape, expand n = .ok shape)
  | .scalar kind => by simp [TypeExpr.shapeM, TypeExpr.references, pure, Except.pure]
  | .external path => by simp [TypeExpr.shapeM, TypeExpr.references, pure, Except.pure]
  | .list element => by
    have h := TypeExpr.exists_shapeM_iff element
    simp only [TypeExpr.shapeM, TypeExpr.references, ← h, bind_eq_ok_iff]
    exact ⟨fun ⟨_, a, ha, _⟩ => ⟨a, ha⟩, fun ⟨a, ha⟩ => ⟨_, a, ha, rfl⟩⟩
  | .map element => by
    have h := TypeExpr.exists_shapeM_iff element
    simp only [TypeExpr.shapeM, TypeExpr.references, ← h, bind_eq_ok_iff]
    exact ⟨fun ⟨_, a, ha, _⟩ => ⟨a, ha⟩, fun ⟨a, ha⟩ => ⟨_, a, ha, rfl⟩⟩
  | .definition name => by
    simp only [TypeExpr.shapeM, TypeExpr.references, List.mem_singleton, forall_eq]
    by_cases hn : r.contains name
    · simp [hn]
    · simp [hn, throw, throwThe, MonadExceptOf.throw]
  | .union members => by
    have h := TypeExpr.exists_shapesM_iff members
    simp only [TypeExpr.shapeM, TypeExpr.references, ← h, bind_eq_ok_iff]
    exact ⟨fun ⟨_, a, ha, _⟩ => ⟨a, ha⟩, fun ⟨a, ha⟩ => ⟨_, a, ha, rfl⟩⟩

theorem TypeExpr.exists_shapesM_iff : (ts : List TypeExpr) →
    ((∃ shapes, TypeExpr.shapesM r expand site ts = .ok shapes) ↔
      ∀ n ∈ TypeExpr.memberReferences ts, r.contains n ∧ ∃ shape, expand n = .ok shape)
  | [] => by simp [TypeExpr.shapesM, TypeExpr.memberReferences, pure, Except.pure]
  | t :: ts => by
    have ht := TypeExpr.exists_shapeM_iff t
    have hts := TypeExpr.exists_shapesM_iff ts
    simp only [TypeExpr.shapesM, TypeExpr.memberReferences, List.forall_mem_append, ← ht, ← hts,
      bind_eq_ok_iff]
    constructor
    · rintro ⟨_, a, ha, as, has, _⟩
      exact ⟨⟨a, ha⟩, ⟨as, has⟩⟩
    · rintro ⟨⟨a, ha⟩, ⟨as, has⟩⟩
      exact ⟨_, a, ha, as, has, rfl⟩

end

theorem FlatFields.exists_shapeM_iff {name : String} {fields : FlatFields} :
    (∃ shape, FlatFields.shapeM r expand name fields = .ok shape) ↔
      ∀ flat ∈ fields.toList, ∀ n ∈ flat.field.type.references,
        r.contains n ∧ ∃ shape, expand n = .ok shape := by
  have hfield (flat : FlatField) : (∃ a, FlatField.shapeM r expand flat = .ok a) ↔
      ∀ n ∈ flat.field.type.references, r.contains n ∧ ∃ shape, expand n = .ok shape := by
    have htype : (∃ shape, TypeExpr.shapeM r expand (flat.declaredIn ++ "." ++ flat.field.name)
        flat.field.containerType = .ok shape) ↔ _ := TypeExpr.exists_shapeM_iff _
    rw [← Field.references_containerType, ← htype]
    simp only [FlatField.shapeM, bind_eq_ok_iff]
    exact ⟨fun ⟨_, a, ha, _⟩ => ⟨a, ha⟩, fun ⟨a, ha⟩ => ⟨_, a, ha, rfl⟩⟩
  simp only [← hfield, ← exists_mapM_eq_ok_iff, FlatFields.shapeM, bind_eq_ok_iff]
  exact ⟨fun ⟨_, a, ha, _⟩ => ⟨a, ha⟩, fun ⟨a, ha⟩ => ⟨_, a, ha, rfl⟩⟩

end Types

namespace Registry

variable {r : Registry}

/-- Some flattened field of the first definition has a type that names the second. -/
def Mentions (r : Registry) (name mentioned : String) : Prop :=
  ∃ f, r.Flattened name f ∧ mentioned ∈ f.type.references

theorem mentions_of_mem {name mentioned : String} {fields : FlatFields} {flat : FlatField}
    (h : r.flatFields name = .ok fields) (hflat : flat ∈ fields.toList)
    (hm : mentioned ∈ flat.field.type.references) : r.Mentions name mentioned := by
  have hfound := FlatFields.field?_eq_some_iff.mpr ⟨flat, hflat, rfl, rfl⟩
  exact ⟨flat.field, ((flattenedBy_of_flatFields h _ _).mp hfound).1, hm⟩

theorem expand_of_mem {steps : Nat} {path : List String} {name : String} (h : name ∈ path) :
    r.expand steps path name = .error (.cyclicShape (cycleAt path name)) := by
  unfold expand
  rw [if_pos h]

theorem expand_succ {steps : Nat} {path : List String} {name : String} (h : name ∉ path) :
    r.expand (steps + 1) path name =
      r.flatFields name >>= FlatFields.shapeM r (r.expand steps (path ++ [name])) name := by
  conv_lhs => unfold expand
  rw [if_neg h]

theorem exists_expand_iff {steps : Nat} {path : List String} {name : String}
    {fields : FlatFields} (hpath : name ∉ path) (hfields : r.flatFields name = .ok fields) :
    (∃ shape, r.expand (steps + 1) path name = .ok shape) ↔
      ∀ n, r.Mentions name n →
        r.contains n ∧ ∃ shape, r.expand steps (path ++ [name]) n = .ok shape := by
  have hbody : r.expand (steps + 1) path name =
      FlatFields.shapeM r (r.expand steps (path ++ [name])) name fields := by
    rw [expand_succ hpath, hfields]
    rfl
  rw [hbody, FlatFields.exists_shapeM_iff]
  constructor
  · rintro h n ⟨f, hf, hn⟩
    have hfound := (flattenedBy_of_flatFields hfields f f.name).mpr ⟨hf, rfl⟩
    obtain ⟨flat, hm, rfl, -⟩ := FlatFields.field?_eq_some_iff.mp hfound
    exact h flat hm n hn
  · intro h flat hm n hn
    exact h n (mentions_of_mem hfields hm hn)

/-- A definition with a shape leads to registered definitions only, and to none on the
path along which it was met. -/
theorem reaches_of_expand {steps : Nat} {path : List String} {name : String} {shape : Shape}
    (h : r.expand steps path name = .ok shape) {n : String}
    (hn : ReflTransGen r.Mentions name n) : r.contains n ∧ n ∉ path := by
  induction steps generalizing path name shape with
  | zero =>
    unfold expand at h
    split at h <;> cases h
  | succ steps ih =>
    have hpath : name ∉ path := by
      intro hm
      rw [expand_of_mem hm] at h
      cases h
    obtain ⟨fields, hfields, -⟩ := bind_eq_ok_iff.mp (expand_succ hpath ▸ h)
    have hroot := rooted_of_flatFields hfields
    rcases ReflTransGen.cases_head hn with rfl | ⟨next, hnext, hn⟩
    · exact ⟨hroot.contains, hpath⟩
    · obtain ⟨-, nextShape, hshape⟩ := (exists_expand_iff hpath hfields).mp ⟨shape, h⟩ next hnext
      obtain ⟨hreg, hout⟩ := ih hshape hn
      exact ⟨hreg, fun hm => hout (List.mem_append_left _ hm)⟩

/-- A definition is met along a path: everything on the path is registered and leads
to the definition, and the steps that are left make up for the length of the path. -/
structure Met (r : Registry) (steps : Nat) (path : List String) (name : String) : Prop where
  nodup : path.Nodup
  leads : ∀ p ∈ path, r.contains p ∧ TransGen r.Mentions p name
  bound : steps + path.length = r.size + 1

theorem met_start (name : String) : r.Met (r.size + 1) [] name where
  nodup := List.nodup_nil
  leads := by simp
  bound := rfl

theorem Met.contains {steps : Nat} {path : List String} {name : String}
    (h : r.Met steps path name) {p : String} (hp : p ∈ path) : r.contains p :=
  (h.leads p hp).1

/-- A path of registered names that differ leaves at least one step. -/
theorem Met.not_zero {path : List String} {name : String} : ¬ r.Met 0 path name := by
  intro h
  have hlen := length_le_size h.nodup fun _ hp => h.contains hp
  have hbound := h.bound
  omega

theorem Met.next {steps : Nat} {path : List String} {name mentioned : String}
    (h : r.Met (steps + 1) path name) (hfresh : name ∉ path) (hname : r.contains name)
    (hm : r.Mentions name mentioned) : r.Met steps (path ++ [name]) mentioned where
  nodup := by
    rw [← List.concat_eq_append]
    exact List.Nodup.concat hfresh h.nodup
  leads := by
    intro p hp
    rcases List.mem_append.mp hp with hp | hp
    · exact ⟨h.contains hp, (h.leads p hp).2.tail hm⟩
    · rw [List.mem_singleton.mp hp]
      exact ⟨hname, .single hm⟩
  bound := by
    have hbound := h.bound
    simp only [List.length_append, List.length_singleton]
    omega

/-- Where fields can be flattened, every mentioned name is registered and nothing leads
back to itself, everything has a shape. -/
theorem exists_expand {steps : Nat} {path : List String} {name : String}
    (hflat : ∀ n, r.contains n → ∃ fields, r.flatFields n = .ok fields)
    (hknown : ∀ m n, r.Mentions m n → r.contains n)
    (hacyclic : ∀ n, ¬ TransGen r.Mentions n n) (hname : r.contains name)
    (hmet : r.Met steps path name) : ∃ shape, r.expand steps path name = .ok shape := by
  induction steps generalizing path name with
  | zero => exact absurd hmet Met.not_zero
  | succ steps ih =>
    have hfresh : name ∉ path := fun hm => hacyclic name (hmet.leads name hm).2
    obtain ⟨fields, hfields⟩ := hflat name hname
    rw [exists_expand_iff hfresh hfields]
    intro n hn
    exact ⟨hknown name n hn, ih (hknown name n hn) (hmet.next hfresh hname hn)⟩

/-- What a flattened field is declared as, and where. -/
theorem exists_declaration {name : String} {f : Field} (h : r.Flattened name f) :
    ∃ d ∈ r.toList, f ∈ d.fields.toList := by
  induction h with
  | own hd hf => exact ⟨_, (Catalogue.find?_eq_some_iff.mp hd).1, hf⟩
  | inherited _ _ _ _ ih => exact ih

end Registry

end RecordDefinitions
