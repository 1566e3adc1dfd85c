import RecordDefinitions.Shape.Expansion

/-!
# Two expansions side by side

The expansion of a type takes what happens at a definition as a parameter. If two
such parameters are related on every definition that the type names, the two
expansions are related as well.
-/

namespace RecordDefinitions

/-- A relation between computations of two kinds that sequences of steps respect. -/
structure Simulation (m n : Type → Type) [Monad m] [Monad n] [MonadExceptOf Failure m]
    [MonadExceptOf Failure n] where
  Rel {α : Type} : m α → n α → Prop
  pure {α : Type} (a : α) : Rel (pure a) (pure a)
  bind {α β : Type} {x : m α} {y : n α} {f : α → m β} {g : α → n β} :
    Rel x y → (∀ a, Rel (f a) (g a)) → Rel (x >>= f) (y >>= g)
  throw {α : Type} (e : Failure) : Rel (throw e : m α) (throw e : n α)

namespace Simulation

variable {m n : Type → Type} [Monad m] [Monad n] [MonadExceptOf Failure m]
  [MonadExceptOf Failure n] (sim : Simulation m n)

theorem bind_pure {α β : Type} {x : m α} {y : n α} {f : α → β} (h : sim.Rel x y) :
    sim.Rel (x >>= fun a => Pure.pure (f a)) (y >>= fun a => Pure.pure (f a)) :=
  sim.bind h fun a => sim.pure (f a)

variable {r : Registry} {expand : String → m Shape} {expand' : String → n Shape} {site : String}

mutual

theorem typeShape : (t : TypeExpr) →
    (∀ k ∈ t.references, r.contains k → sim.Rel (expand k) (expand' k)) →
      sim.Rel (TypeExpr.shapeM r expand site t) (TypeExpr.shapeM r expand' site t)
  | .scalar kind, _ => sim.pure _
  | .external path, _ => sim.pure _
  | .list element, h => by
    simp only [TypeExpr.shapeM]
    exact sim.bind_pure (typeShape element h)
  | .map element, h => by
    simp only [TypeExpr.shapeM]
    exact sim.bind_pure (typeShape element h)
  | .definition name, h => by
    simp only [TypeExpr.shapeM, TypeExpr.references] at h ⊢
    by_cases hn : r.contains name
    · rw [if_pos hn, if_pos hn]
      exact h name (List.mem_singleton.mpr rfl) hn
    · rw [if_neg hn, if_neg hn]
      exact sim.throw _
  | .union members, h => by
    simp only [TypeExpr.shapeM]
    exact sim.bind_pure (memberShapes members h)

theorem memberShapes : (ts : List TypeExpr) →
    (∀ k ∈ TypeExpr.memberReferences ts, r.contains k → sim.Rel (expand k) (expand' k)) →
      sim.Rel (TypeExpr.shapesM r expand site ts) (TypeExpr.shapesM r expand' site ts)
  | [], _ => sim.pure _
  | t :: ts, h => by
    simp only [TypeExpr.memberReferences] at h
    simp only [TypeExpr.shapesM]
    refine sim.bind (typeShape t fun k hk => h k (List.mem_append_left _ hk)) fun shape => ?_
    exact sim.bind_pure (memberShapes ts fun k hk => h k (List.mem_append_right _ hk))

end

variable [LawfulMonad m] [LawfulMonad n]

theorem mapM {α β : Type} {f : α → m β} {g : α → n β} {as : List α}
    (h : ∀ a ∈ as, sim.Rel (f a) (g a)) : sim.Rel (as.mapM f) (as.mapM g) := by
  induction as with
  | nil =>
    rw [List.mapM_nil, List.mapM_nil]
    exact sim.pure []
  | cons a as ih =>
    rw [List.mapM_cons, List.mapM_cons]
    refine sim.bind (h a List.mem_cons_self) fun b => sim.bind_pure ?_
    exact ih fun x hx => h x (List.mem_cons_of_mem a hx)

theorem recordShape {name : String} {fields : FlatFields}
    (h : ∀ flat ∈ fields.toList, ∀ k ∈ flat.field.containerType.references, r.contains k →
      sim.Rel (expand k) (expand' k)) :
    sim.Rel (FlatFields.shapeM r expand name fields) (FlatFields.shapeM r expand' name fields) := by
  unfold FlatFields.shapeM
  refine sim.bind_pure (sim.mapM fun flat hm => ?_)
  unfold FlatField.shapeM
  exact sim.bind_pure (sim.typeShape _ (h flat hm))

end Simulation

end RecordDefinitions
