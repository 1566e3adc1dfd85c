import Mathlib.Data.List.Perm.Basic
import RecordDefinitions.Proofs.Resolution.Order
import RecordDefinitions.Proofs.Resolution.Substitution

/-!
# Registration in another order

Resolving one definition asks a registry only for definitions by name and for how many
there are. Two registries of the same definitions agree on both, whatever their orders, so
each definition is resolved to the same in both of them or in neither.
-/

namespace RecordDefinitions

/-- Catalogues of the same items look up the same. -/
theorem Catalogue.find?_eq_of_perm {α : Type} [Named α] {c d : Catalogue α}
    (h : c.toList.Perm d.toList) (name : String) : c.find? name = d.find? name := by
  ext a
  rw [Catalogue.find?_eq_some_iff, Catalogue.find?_eq_some_iff, h.mem_iff]

/-- Every name means the same in both registries, and both have as many definitions. -/
structure Registry.Agrees (r r' : Registry) : Prop where
  find : ∀ name, r.find? name = r'.find? name
  size : r.size = r'.size

theorem Registry.agrees_of_perm {r r' : Registry} (h : r.toList.Perm r'.toList) : r.Agrees r' where
  find := Catalogue.find?_eq_of_perm h
  size := h.length_eq

namespace Registry.Agrees

variable {r r' : Registry} (h : r.Agrees r')
include h

theorem contains (name : String) : r.contains name = r'.contains name := by
  rw [Catalogue.contains, Catalogue.contains, h.find]

theorem get (name : String) : r.get name = r'.get name := by
  rw [Registry.get, Registry.get, h.find]

/-! ## Parents and fields -/

theorem meets (ancestor : String) (steps : Nat) (child : String) :
    r.meets ancestor steps child = r'.meets ancestor steps child := by
  have hparent (name : String) : r.parentOf? name = r'.parentOf? name := by
    rw [parentOf?, parentOf?, h.find]
  induction steps generalizing child with
  | zero =>
    unfold Registry.meets
    rw [hparent]
  | succ steps ih =>
    unfold Registry.meets
    rw [hparent]
    cases r'.parentOf? child with
    | none => rfl
    | some parent => simp only [ih]

theorem lineage : r.lineage = r'.lineage := by
  funext child ancestor
  rw [Registry.lineage, Registry.lineage, h.size, h.meets]

theorem climb (steps : Nat) (names : List String) (d : Definition) :
    r.climb steps names d = r'.climb steps names d := by
  induction steps generalizing names d with
  | zero =>
    unfold Registry.climb
    cases d.parent with
    | none => rfl
    | some parent =>
      simp only [h.find]
      cases r'.find? parent <;> rfl
  | succ steps ih =>
    unfold Registry.climb
    cases d.parent with
    | none => rfl
    | some parent =>
      simp only [h.find]
      cases r'.find? parent with
      | none => rfl
      | some p => simp only [ih]

theorem chain (name : String) : r.chain name = r'.chain name := by
  simp only [Registry.chain, h.get, h.size, h.climb]

theorem flatFields (name : String) : r.flatFields name = r'.flatFields name := by
  have hextend : r.extendNamed = r'.extendNamed := by
    funext fields name
    rw [extendNamed, extendNamed, h.lineage, h.get]
  rw [Registry.flatFields, Registry.flatFields, h.chain, hextend]

/-! ## Shapes -/

section Types

variable {m : Type → Type} [Monad m] [MonadExceptOf Failure m] (expand : String → m Shape)

omit h in
mutual

theorem shapeM (h : r.Agrees r') (site : String) (t : TypeExpr) :
    t.shapeM r expand site = t.shapeM r' expand site := by
  cases t with
  | scalar | external => simp only [TypeExpr.shapeM]
  | definition name => simp only [TypeExpr.shapeM, h.contains]
  | list element => simp only [TypeExpr.shapeM, shapeM h site element]
  | map element => simp only [TypeExpr.shapeM, shapeM h site element]
  | union members => simp only [TypeExpr.shapeM, shapesM h site members]

theorem shapesM (h : r.Agrees r') (site : String) (types : List TypeExpr) :
    TypeExpr.shapesM r expand site types = TypeExpr.shapesM r' expand site types := by
  cases types with
  | nil => simp only [TypeExpr.shapesM]
  | cons t rest => simp only [TypeExpr.shapesM, shapeM h site t, shapesM h site rest]

end

theorem recordShape (name : String) (fields : FlatFields) :
    FlatFields.shapeM r expand name fields = FlatFields.shapeM r' expand name fields := by
  have hfield : FlatField.shapeM r expand = FlatField.shapeM r' expand := by
    funext f
    simp only [FlatField.shapeM, h.shapeM]
  rw [FlatFields.shapeM, FlatFields.shapeM, hfield]

end Types

theorem expand (steps : Nat) (path : List String) (name : String) :
    r.expand steps path name = r'.expand steps path name := by
  induction steps generalizing path name with
  | zero => simp only [Registry.expand]
  | succ steps ih =>
    have hinner : r.expand steps (path ++ [name]) = r'.expand steps (path ++ [name]) :=
      funext fun inner => ih (path ++ [name]) inner
    simp only [Registry.expand, h.flatFields, hinner, h.recordShape]

theorem shape (name : String) : r.shape name = r'.shape name := by
  rw [Registry.shape, Registry.shape, h.size, h.expand]

/-- What a definition is resolved to does not depend on the order either. -/
theorem resolved (name : String) : r.resolved name = r'.resolved name := by
  simp only [Registry.resolved, h.get, h.chain, h.flatFields, h.shape]

end Registry.Agrees

theorem exists_resolve_iff {r : Registry} :
    (∃ s, resolve r = .ok s) ↔ ∀ d ∈ r.toList, ∃ a, r.resolved d.name = .ok a := by
  constructor
  · rintro ⟨s, hs⟩ d hd
    obtain ⟨a, -, ha⟩ := exists_of_forall₂_left (resolve_eq_ok_iff.mp hs) d hd
    exact ⟨a, ha⟩
  · exact fun h => exists_resolve_of_resolvable (Registry.resolvable_of_resolved h)

/-- A resolved set holds, under the names of the registry and no others, what the definitions
of those names are resolved to. -/
theorem find?_eq_some_iff_of_resolve {r : Registry} {s : ResolvedSet} (h : resolve r = .ok s)
    {name : String} {a : ResolvedDefinition} :
    s.find? name = some a ↔ r.contains name ∧ r.resolved name = .ok a := by
  constructor
  · intro hfind
    obtain ⟨ha, rfl⟩ := Catalogue.find?_eq_some_iff.mp hfind
    obtain ⟨d, hd, hresolved⟩ := exists_of_forall₂_left (resolve_eq_ok_iff.mp h).flip a ha
    obtain ⟨-, hdefinition, -⟩ := Registry.resolved_eq_ok_iff.mp hresolved
    have hname : d.name = nameOf a := (Registry.name_of_find? hdefinition).symm
    rw [← hname]
    exact ⟨Catalogue.contains_of_find? hdefinition, hresolved⟩
  · rintro ⟨hname, hresolved⟩
    obtain ⟨b, hfind, hresolved'⟩ := exists_find?_of_resolve h hname
    cases hresolved.symm.trans hresolved'
    exact hfind

/-- The same definitions resolve in every order or in none, and in every order a name has the
same resolved definition: the definition itself, its ancestors, its fields and its shape. -/
theorem resolve_reordered {r r' : Registry} (h : r.toList.Perm r'.toList) :
    ((∃ s, resolve r = .ok s) ↔ ∃ s', resolve r' = .ok s') ∧
      ∀ s s', resolve r = .ok s → resolve r' = .ok s' → ∀ name, s.find? name = s'.find? name := by
  have hagrees := Registry.agrees_of_perm h
  constructor
  · simp only [exists_resolve_iff, hagrees.resolved, h.mem_iff]
  · intro s s' hs hs' name
    ext a
    rw [find?_eq_some_iff_of_resolve hs, find?_eq_some_iff_of_resolve hs', hagrees.contains,
      hagrees.resolved]

theorem resolve_reordered_lodgings :
    let reversed : Registry := Catalogue.ofList lodgings.toList.reverse
    lodgings.toList.Perm reversed.toList ∧
      ∃ s s', resolve lodgings = .ok s ∧ resolve reversed = .ok s' ∧
        s.find? "Farm" = s'.find? "Farm" := by
  intro reversed
  have hperm : lodgings.toList.Perm reversed.toList := by
    have hlist : reversed.toList = lodgings.toList.reverse := by decide +kernel
    exact hlist ▸ (List.reverse_perm _).symm
  have hboth := resolve_reordered hperm
  have hok : (resolve lodgings).isOk := by decide +kernel
  cases hs : resolve lodgings with
  | error e =>
    rw [hs] at hok
    cases hok
  | ok s =>
    obtain ⟨s', hs'⟩ := hboth.1.mp ⟨s, hs⟩
    exact ⟨hperm, s, s', rfl, hs', hboth.2 s s' hs hs' "Farm"⟩

end RecordDefinitions
