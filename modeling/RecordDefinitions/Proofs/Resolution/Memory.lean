import RecordDefinitions.Proofs.Shape.Expansion
import RecordDefinitions.Proofs.Shape.Simulation
import RecordDefinitions.Resolution.Resolver

/-!
# The memory of a resolver

A memory is sound when it holds only what the plain computation gives. Every question
to a resolver with a sound memory has the plain answer, failures included, and leaves a
sound memory. For shapes this rests on the fact that a shape does not depend on the path
along which its definition is met, as long as nothing leads back onto that path.
-/

namespace RecordDefinitions

open Relation

variable {r : Registry}

/-! ## Shapes do not depend on the path -/

/-- If the first computation has a value, then the second has the same. -/
def valueSimulation : Simulation (Except Failure) (Except Failure) where
  Rel x y := ∀ a, x = .ok a → y = .ok a
  pure _ _ h := h
  bind := by
    intro α β x y f g hxy hfg b hb
    obtain ⟨a, ha, hb⟩ := bind_eq_ok_iff.mp hb
    exact bind_eq_ok_iff.mpr ⟨a, hxy a ha, hfg a b hb⟩
  throw _ _ h := h

/-- A shape that was found along one path is found along every other one that nothing
leads back to. -/
theorem Registry.expand_eq_of_expand {steps steps' : Nat} {path path' : List String}
    {name : String} {shape : Shape} (h : r.expand steps path name = .ok shape)
    (hout : ∀ n, ReflTransGen r.Mentions name n → n ∉ path') (hmet : r.Met steps' path' name) :
    r.expand steps' path' name = .ok shape := by
  induction steps generalizing path steps' path' name shape with
  | zero =>
    unfold expand at h
    split at h <;> cases h
  | succ steps ih =>
    obtain ⟨hknown, hfresh⟩ := reaches_of_expand h .refl
    have hname : name ∉ path' := hout name .refl
    rw [expand_succ hfresh] at h
    obtain ⟨fields, hfields, hshape⟩ := bind_eq_ok_iff.mp h
    cases steps' with
    | zero => exact absurd hmet Met.not_zero
    | succ steps' =>
      rw [expand_succ hname, hfields]
      refine valueSimulation.recordShape (fun flat hflat k hk _ a ha => ?_) shape hshape
      rw [Field.references_containerType] at hk
      have hmentions := mentions_of_mem hfields hflat hk
      refine ih ha (fun n hn hm => ?_) (hmet.next hname hknown hmentions)
      rcases List.mem_append.mp hm with hm | hm
      · exact hout n (.head hmentions hn) hm
      · have hback := (reaches_of_expand ha hn).2
        exact hback (List.mem_append_right _ hm)

/-- A definition with a shape does not lead back to itself. -/
theorem Registry.acyclic_of_expand {steps : Nat} {path : List String} {name : String}
    {shape : Shape} (h : r.expand steps path name = .ok shape) : ¬ TransGen r.Mentions name name := by
  intro hcycle
  cases steps with
  | zero =>
    unfold expand at h
    split at h <;> cases h
  | succ steps =>
    have hfresh : name ∉ path := (reaches_of_expand h .refl).2
    obtain ⟨fields, hfields, -⟩ := bind_eq_ok_iff.mp (expand_succ hfresh ▸ h)
    obtain ⟨next, hnext, hback⟩ := TransGen.head'_iff.mp hcycle
    obtain ⟨-, nextShape, hshape⟩ := (exists_expand_iff hfresh hfields).mp ⟨shape, h⟩ next hnext
    exact (reaches_of_expand hshape hback).2 (by simp)

/-! ## Sound memories -/

/-- Everything that is remembered is what the plain computation gives. -/
structure ResolverMemory.Sound (r : Registry) (m : ResolverMemory) : Prop where
  fields : ∀ name known, m.fields.find? name = some known → r.flatFields name = .ok known.2
  shapes : ∀ name known, m.shapes.find? name = some known → r.shape name = .ok known.2

namespace Resolver

theorem sound_empty : ResolverMemory.empty.Sound r where
  fields _ _ h := by cases h
  shapes _ _ h := by cases h

/-- With any sound memory the resolver gives the plain answer and keeps its memory sound. -/
def Answers {α : Type} (r : Registry) (x : Resolver α) (y : Except Failure α) : Prop :=
  ∀ m : ResolverMemory, m.Sound r → (outcome x m).1 = y ∧ (outcome x m).2.Sound r

namespace Answers

variable {α β : Type}

theorem ofExcept (y : Except Failure α) : Answers r (Resolver.ofExcept y) y :=
  fun _ hm => ⟨rfl, hm⟩

theorem pure (a : α) : Answers r (Pure.pure a) (.ok a) := fun _ hm => ⟨rfl, hm⟩

theorem throw (e : Failure) : Answers r (α := α) (MonadExcept.throw e) (.error e) :=
  fun _ hm => ⟨rfl, hm⟩

/-- The second part needs to answer only for what the first part can give. -/
theorem bind {x : Resolver α} {y : Except Failure α} {f : α → Resolver β}
    {g : α → Except Failure β} (hx : Answers r x y)
    (hf : ∀ a, y = .ok a → Answers r (f a) (g a)) : Answers r (x >>= f) (y >>= g) := by
  intro m hm
  obtain ⟨hvalue, hsound⟩ := hx m hm
  rw [outcome_bind]
  generalize outcome x m = o at hvalue hsound ⊢
  obtain ⟨value, rest⟩ := o
  cases value with
  | error e =>
    simp only at hvalue
    subst hvalue
    exact ⟨rfl, hsound⟩
  | ok a =>
    simp only at hvalue
    subst hvalue
    exact hf a rfl rest hsound

end Answers

/-- Answers from a sound memory, as a relation that sequences of steps respect. -/
def answerSimulation (r : Registry) : Simulation Resolver (Except Failure) where
  Rel x y := Answers r x y
  pure a := .pure a
  bind hx hf := hx.bind fun a _ => hf a
  throw e := .throw e

theorem answers_rememberFields {name : String} {fields : FlatFields}
    (h : r.flatFields name = .ok fields) : Answers r (rememberFields name fields) (.ok ()) := by
  refine fun m hm => ⟨rfl, ⟨fun other known hknown => ?_, hm.shapes⟩⟩
  change (m.fields.insert (name, fields)).find? other = some known at hknown
  rw [Catalogue.find?_insert] at hknown
  split at hknown
  · rename_i hsame
    cases hknown
    cases hsame
    exact h
  · exact hm.fields other known hknown

theorem answers_rememberShape {name : String} {shape : Shape}
    (h : r.shape name = .ok shape) : Answers r (rememberShape name shape) (.ok ()) := by
  refine fun m hm => ⟨rfl, ⟨hm.fields, fun other known hknown => ?_⟩⟩
  change (m.shapes.insert (name, shape)).find? other = some known at hknown
  rw [Catalogue.find?_insert] at hknown
  split at hknown
  · rename_i hsame
    cases hknown
    cases hsame
    exact h
  · exact hm.shapes other known hknown

/-! ## Every question has the plain answer -/

theorem answers_chain (name : String) : Answers r (chain r name) (r.chain name) := .ofExcept _

theorem answers_flatStep {inherited : FlatFields} {name : String}
    (h : r.extendNamed inherited name = r.flatFields name) :
    Answers r (flatStep r inherited name) (r.flatFields name) := by
  intro m hm
  unfold flatStep
  rw [outcome_bind, outcome_get]
  cases hknown : m.fields.find? name with
  | some known => 
    simp only [hknown]
    exact ⟨(hm.fields name known hknown).symm, hm⟩
  | none =>
    simp only [hknown]
    have hcompute : Answers r
        (Resolver.ofExcept (r.extendNamed inherited name) >>= fun fields =>
          rememberFields name fields >>= fun _ => Pure.pure fields)
        (r.flatFields name >>= Pure.pure) := by
      rw [h]
      exact (Answers.ofExcept _).bind fun fields hfields =>
        (answers_rememberFields hfields).bind fun _ _ => .pure fields
    rw [bind_pure] at hcompute
    exact hcompute m hm

/-- Along a chain the fields of each name are computed from those of its parent. -/
theorem answers_flatChain {name : String} {ancestors : List String}
    (h : r.Ascends name ancestors) :
    Answers r ((name :: ancestors).reverse.foldlM (flatStep r) .empty) (r.flatFields name) := by
  induction h with
  | @root name d hd hp =>
    have hextend : r.extendNamed .empty name = r.flatFields name := by
      rw [Registry.flatFields_root hd hp, Registry.extendNamed, Registry.get_of_find? hd]
      rfl
    rw [List.reverse_singleton, List.foldlM_cons]
    have hstep := answers_flatStep hextend
    rw [← bind_pure (r.flatFields name)]
    exact hstep.bind fun fields _ => .pure fields
  | @step name parent d rest hd hp hrest ih =>
    have hflat := Registry.flatFields_step hd hp hrest
    have hchain : (name :: parent :: rest).reverse = (parent :: rest).reverse ++ [name] :=
      List.reverse_cons
    rw [hchain, List.foldlM_append]
    have hplain : r.flatFields name = r.flatFields parent >>= fun _ => r.flatFields name := by
      cases hparent : r.flatFields parent with
      | error e =>
        rw [hflat, hparent]
        rfl
      | ok inherited => rfl
    rw [hplain]
    refine ih.bind fun inherited hinherited => ?_
    have hextend : r.extendNamed inherited name = r.flatFields name := by
      rw [hflat, hinherited, Registry.extendNamed, Registry.get_of_find? hd]
      rfl
    rw [List.foldlM_cons, ← bind_pure (r.flatFields name)]
    exact (answers_flatStep hextend).bind fun fields _ => .pure fields

theorem answers_flatFields (name : String) : Answers r (flatFields r name) (r.flatFields name) := by
  intro m hm
  unfold flatFields
  rw [outcome_bind, outcome_get]
  cases hknown : m.fields.find? name with
  | some known =>
    simp only [hknown]
    exact ⟨(hm.fields name known hknown).symm, hm⟩
  | none =>
    simp only [hknown]
    refine Answers.bind (g := fun names => names.foldlM r.extendNamed .empty)
      (answers_chain name) (fun names hnames => ?_) m hm
    obtain ⟨ancestors, hasc, rfl⟩ := Registry.chain_eq_ok_iff.mp hnames
    have hplain : (name :: ancestors).reverse.foldlM r.extendNamed .empty = r.flatFields name := by
      rw [Registry.flatFields, hnames]
      rfl
    rw [hplain]
    exact answers_flatChain hasc

/-- A remembered shape is given without looking at the path. This is right because a
definition with a shape does not lead back to itself, while everything on the path
leads to the definition that is asked for. -/
theorem answers_expand {steps : Nat} {path : List String} {name : String}
    (hmet : r.Met steps path name) :
    Answers r (expand r steps path name) (r.expand steps path name) := by
  induction steps generalizing path name with
  | zero => exact absurd hmet Registry.Met.not_zero
  | succ steps ih =>
    intro m hm
    unfold expand
    rw [outcome_bind, outcome_get]
    cases hknown : m.shapes.find? name with
    | some known =>
      simp only [hknown]
      have hshape := hm.shapes name known hknown
      have hout (n : String) (hn : ReflTransGen r.Mentions name n) : n ∉ path := fun hp =>
        Registry.acyclic_of_expand hshape (.trans_right hn (hmet.leads n hp).2)
      exact ⟨(Registry.expand_eq_of_expand hshape hout hmet).symm, hm⟩
    | none =>
      simp only [hknown]
      by_cases hmem : name ∈ path
      · rw [if_pos hmem, Registry.expand_of_mem hmem]
        exact ⟨rfl, hm⟩
      · rw [if_neg hmem, ← bind_pure (r.expand (steps + 1) path name), Registry.expand_succ hmem,
          bind_assoc]
        refine (answers_flatFields name).bind (fun fields hfields => ?_) m hm
        have hname : r.contains name := (Registry.rooted_of_flatFields hfields).contains
        refine Answers.bind ?_ fun shape hshape => ?_
        · refine (answerSimulation r).recordShape fun flat hflat k hk _ => ih ?_
          rw [Field.references_containerType] at hk
          exact hmet.next hmem hname (Registry.mentions_of_mem hfields hflat hk)
        · have hbody : r.expand (steps + 1) path name = .ok shape := by
            rw [Registry.expand_succ hmem, hfields]
            exact hshape
          have hplain : r.shape name = .ok shape :=
            Registry.expand_eq_of_expand hbody (by simp) (Registry.met_start name)
          exact (answers_rememberShape hplain).bind fun _ _ => .pure shape

theorem answers_shape (name : String) : Answers r (shape r name) (r.shape name) :=
  answers_expand (Registry.met_start name)

theorem answers_definition (name : String) : Answers r (definition r name) (r.resolved name) :=
  (Answers.ofExcept _).bind fun _ _ => (answers_chain name).bind fun _ _ =>
    (answers_flatFields name).bind fun _ _ => (answers_shape name).bind fun _ _ => .pure _

theorem answers_all (r : Registry) :
    Answers r (all r) (Catalogue.ofList <$> r.toList.mapM fun d => r.resolved d.name) := by
  rw [map_eq_pure_bind]
  refine Answers.bind ?_ fun _ _ => .pure _
  exact (answerSimulation r).mapM fun d _ => answers_definition d.name

end Resolver

/-- A registry is resolved by resolving its definitions one after the other. -/
theorem resolve_eq (r : Registry) :
    resolve r = Catalogue.ofList <$> r.toList.mapM fun d => r.resolved d.name :=
  (Resolver.answers_all r .empty Resolver.sound_empty).1

end RecordDefinitions
