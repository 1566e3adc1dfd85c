import Mathlib.Data.List.Perm.Basic
import Mathlib.Data.Set.Function
import RecordDefinitions.Proofs.Distinct
import RecordDefinitions.Proofs.Inference.Listing

/-!
# Definitions under other names

Two sets of definitions may differ in nothing but the names of the definitions, the order of their
fields and the order of the members of unions. Blocks of definitions are paired one by one; what
they come with corresponds under every relation that holds between the names of each pair, so
pairings of parts need not be compared again when they are put together.
-/

namespace RecordDefinitions

/-- Items that are related one by one when those of the second list are put in another order. -/
def RelatedInSomeOrder {α : Type} (Rel : α → α → Prop) (as bs : List α) : Prop :=
  ∃ cs, List.Forall₂ Rel as cs ∧ cs.Perm bs

/-- Types that are the same when definitions go by related names and the members of unions come in
some order. -/
inductive TypeExpr.Corresponds (R : String → String → Prop) : TypeExpr → TypeExpr → Prop
  | scalar (kind : ScalarKind) : Corresponds R (.scalar kind) (.scalar kind)
  | external (path : String) : Corresponds R (.external path) (.external path)
  | definition {name name' : String} :
    R name name' → Corresponds R (.definition name) (.definition name')
  | list {element element' : TypeExpr} :
    Corresponds R element element' → Corresponds R (.list element) (.list element')
  | map {element element' : TypeExpr} :
    Corresponds R element element' → Corresponds R (.map element) (.map element')
  | union {types others types' : List TypeExpr} :
    List.Forall₂ (Corresponds R) types others → others.Perm types' →
      Corresponds R (.union types) (.union types')

/-- Fields with the same name and the same marks, whose texts are those of corresponding types. -/
structure FieldDeclaration.Corresponds (R : String → String → Prop)
    (f f' : String × FieldDeclaration) : Prop where
  name : f'.1 = f.1
  marks : f'.2 = { f.2 with type := f'.2.type }
  type : ∃ type type' : TypeExpr,
    f.2.type = type.text ∧ f'.2.type = type'.text ∧ type.Corresponds R type'

/-- Declarations that differ in their fields only, and these correspond in some order. -/
structure Declaration.Corresponds (R : String → String → Prop) (d d' : Declaration) : Prop where
  marks : d' = { d with fields := d'.fields }
  fields : RelatedInSomeOrder (FieldDeclaration.Corresponds R) d.fields.toList d'.fields.toList

/-- A bijection between the names of two sets of declarations, under which the declarations
correspond. -/
structure Declarations.Renamed (σ : String → String) (ds ds' : Declarations) : Prop where
  bijective : Set.BijOn σ {name | name ∈ ds.names} {name | name ∈ ds'.names}
  declarations : ∀ d ∈ ds.toList, ∃ declaration, (σ d.1, declaration) ∈ ds'.toList ∧
    d.2.Corresponds (fun name name' => name ∈ ds.names ∧ σ name = name') declaration

/-- Types that differ and are no unions have corresponding unions when they correspond themselves. -/
theorem TypeExpr.corresponds_unionOf {R : String → String → Prop} {types types' : List TypeExpr}
    (h : RelatedInSomeOrder (Corresponds R) types types')
    (hnodup : types.Nodup) (hsingle : ∀ t ∈ types, t.isUnion = false)
    (hnodup' : types'.Nodup) (hsingle' : ∀ t ∈ types', t.isUnion = false) :
    (unionOf types).Corresponds R (unionOf types') := by
  obtain ⟨others, hothers, hperm⟩ := h
  cases hothers with
  | nil =>
    rw [List.nil_perm.mp hperm]
    exact .scalar .mixed
  | @cons t u rest _ hfirst hrest =>
    cases hrest with
    | nil =>
      obtain rfl := List.singleton_perm.mp hperm
      rwa [unionOf_singleton (hsingle t List.mem_cons_self),
        unionOf_singleton (hsingle' u List.mem_cons_self)]
    | cons hsecond hrest =>
      have hlength := hperm.length_eq
      rw [unionOf_of_nodup (by simp) hnodup hsingle,
        unionOf_of_nodup (hlength ▸ by simp) hnodup' hsingle']
      exact .union (.cons hfirst (.cons hsecond hrest)) hperm

namespace Inference

/-- Definitions of two blocks, pair by pair. -/
abbrev Pairing := List ((String × Declaration) × (String × Declaration))

/-- Two blocks of definitions are paired, and what comes with them is related, as are the
definitions of each pair, whenever the names of each pair are. -/
def Matches {α : Type} (Rel : (String → String → Prop) → α → α → Prop) (a a' : α)
    (block block' : List (String × Declaration)) : Prop :=
  ∃ pairs : Pairing, pairs.map Prod.fst = block ∧ (pairs.map Prod.snd).Perm block' ∧
    ∀ R : String → String → Prop, (∀ p ∈ pairs, R p.1.1 p.2.1) →
      Rel R a a' ∧ ∀ p ∈ pairs, p.1.2.Corresponds R p.2.2

namespace Matches

variable {α β : Type} {Rel : (String → String → Prop) → α → α → Prop}
  {Rel' : (String → String → Prop) → β → β → Prop} {a a' : α} {b b' : β}
  {block block' block'' : List (String × Declaration)}

theorem nil (h : ∀ R, Rel R a a') : Matches Rel a a' [] [] :=
  ⟨[], rfl, .refl _, fun R _ => ⟨h R, nofun⟩⟩

theorem imp (h : Matches Rel a a' block block') (himp : ∀ R, Rel R a a' → Rel' R b b') :
    Matches Rel' b b' block block' := by
  obtain ⟨pairs, hleft, hright, hrelated⟩ := h
  exact ⟨pairs, hleft, hright, fun R hR => ⟨himp R (hrelated R hR).1, (hrelated R hR).2⟩⟩

theorem perm (h : Matches Rel a a' block block') (hperm : block'.Perm block'') :
    Matches Rel a a' block block'' := by
  obtain ⟨pairs, hleft, hright, hrelated⟩ := h
  exact ⟨pairs, hleft, hright.trans hperm, hrelated⟩

/-- Blocks that are paired one by one are paired together. -/
theorem row {xs xs' : List (α × List (String × Declaration))}
    (h : List.Forall₂ (fun x x' => Matches Rel x.1 x'.1 x.2 x'.2) xs xs') :
    Matches (fun R => List.Forall₂ (Rel R)) (xs.map Prod.fst) (xs'.map Prod.fst)
      (xs.flatMap Prod.snd) (xs'.flatMap Prod.snd) := by
  induction h with
  | nil => exact .nil fun _ => .nil
  | cons hfirst _ ih =>
    obtain ⟨first, hleft, hright, hrelated⟩ := hfirst
    obtain ⟨others, hlefts, hrights, hrelateds⟩ := ih
    refine ⟨first ++ others, ?_, ?_, fun R hR => ?_⟩
    · rw [List.map_append, hleft, hlefts, List.flatMap_cons]
    · rw [List.map_append, List.flatMap_cons]
      exact hright.append hrights
    · obtain ⟨hR, hRs⟩ := List.forall_mem_append.mp hR
      obtain ⟨ha, hfirst⟩ := hrelated R hR
      obtain ⟨has, hothers⟩ := hrelateds R hRs
      exact ⟨.cons ha has, List.forall_mem_append.mpr ⟨hfirst, hothers⟩⟩

/-- What is shown for the same keys in two orders is paired when it is for each key. -/
theorem of_perm {κ : Type} {keys keys' : List κ}
    {Shows Shows' : κ → α × List (String × Declaration) → Prop} (hperm : keys.Perm keys')
    {xs xs' : List (α × List (String × Declaration))} (h : List.Forall₂ Shows keys xs)
    (h' : List.Forall₂ Shows' keys' xs')
    (hkey : ∀ key ∈ keys, ∀ x x', Shows key x → Shows' key x' → Matches Rel x.1 x'.1 x.2 x'.2) :
    Matches (fun R => RelatedInSomeOrder (Rel R)) (xs.map Prod.fst) (xs'.map Prod.fst)
      (xs.flatMap Prod.snd) (xs'.flatMap Prod.snd) := by
  obtain ⟨ys, hys, hsame⟩ := List.perm_comp_forall₂ hperm h'
  have hpaired : List.Forall₂ (fun x x' => Matches Rel x.1 x'.1 x.2 x'.2) xs ys := by
    clear hperm h' hsame
    induction h generalizing ys with
    | nil =>
      cases hys
      exact .nil
    | cons hx _ ih =>
      cases hys with
      | cons hy hys =>
        obtain ⟨hfirst, hothers⟩ := List.forall_mem_cons.mp hkey
        exact .cons (hfirst _ _ hx hy) (ih hothers _ hys)
  refine ((row hpaired).imp fun R hrelated => ?_).perm (hsame.flatMap_right _)
  exact ⟨_, hrelated, hsame.map _⟩

/-- A definition on both sides is one more pair. -/
theorem define {name name' : String} {declared declared' : List (String × FieldDeclaration)}
    (h : Matches (fun R => RelatedInSomeOrder (FieldDeclaration.Corresponds R)) declared declared'
      block block')
    (hnodup : (namesOf declared).Nodup) (hnodup' : (namesOf declared').Nodup) :
    Matches id name name' ((name, declarationOf declared) :: block)
      ((name', declarationOf declared') :: block') := by
  obtain ⟨pairs, hleft, hright, hrelated⟩ := h
  refine ⟨((name, declarationOf declared), (name', declarationOf declared')) :: pairs,
    congrArg _ hleft, hright.cons _, fun R hR => ?_⟩
  obtain ⟨hname, hpairs⟩ := List.forall_mem_cons.mp hR
  obtain ⟨hfields, hothers⟩ := hrelated R hpairs
  refine ⟨hname, List.forall_mem_cons.mpr ⟨⟨rfl, ?_⟩, hothers⟩⟩
  rwa [declarationOf, declarationOf, Catalogue.toList_ofList hnodup, Catalogue.toList_ofList hnodup']

end Matches

/-- Pairs with different names on either side are those of a bijection. -/
theorem exists_bijOn {pairs : List (String × String)} (hleft : (pairs.map Prod.fst).Nodup)
    (hright : (pairs.map Prod.snd).Nodup) : ∃ σ : String → String,
      Set.BijOn σ {name | name ∈ pairs.map Prod.fst} {name | name ∈ pairs.map Prod.snd} ∧
        ∀ p ∈ pairs, σ p.1 = p.2 := by
  let σ (name : String) : String := ((pairs.find? (·.1 == name)).map Prod.snd).getD name
  have hvalue : ∀ p ∈ pairs, σ p.1 = p.2 := by
    intro p hp
    cases hfind : pairs.find? (·.1 == p.1) with
    | none =>
      have hnone := List.find?_eq_none.mp hfind p hp
      simp at hnone
    | some q =>
      have hname : q.1 = p.1 := by simpa using List.find?_some hfind
      have hsame := List.inj_on_of_nodup_map hleft (List.mem_of_find?_eq_some hfind) hp hname
      simp only [σ, hfind, hsame, Option.map_some, Option.getD_some]
  refine ⟨σ, ⟨?_, ?_, ?_⟩, hvalue⟩
  · rintro _ hname
    obtain ⟨p, hp, rfl⟩ := List.mem_map.mp hname
    exact hvalue p hp ▸ List.mem_map_of_mem hp
  · rintro _ hname _ hother hsame
    obtain ⟨p, hp, rfl⟩ := List.mem_map.mp hname
    obtain ⟨q, hq, rfl⟩ := List.mem_map.mp hother
    rw [hvalue p hp, hvalue q hq] at hsame
    rw [List.inj_on_of_nodup_map hright hp hq hsame]
  · rintro _ hname
    obtain ⟨p, hp, rfl⟩ := List.mem_map.mp hname
    exact ⟨p.1, List.mem_map_of_mem hp, hvalue p hp⟩

/-- Sets of definitions that are paired one by one are the same up to names. -/
theorem Matches.exists_renamed {ds ds' : Declarations} {name name' : String}
    (h : Matches id name name' ds.toList ds'.toList) :
    ∃ σ : String → String, Declarations.Renamed σ ds ds' ∧ σ name = name' := by
  obtain ⟨pairs, hleft, hright, hrelated⟩ := h
  let names : List (String × String) := pairs.map fun p => (p.1.1, p.2.1)
  have hnames : names.map Prod.fst = ds.names := by
    rw [Catalogue.names, ← hleft, namesOf, List.map_map, List.map_map]
    rfl
  have hnames' : (names.map Prod.snd).Perm ds'.names := by
    have hmapped := hright.map Prod.fst
    rw [List.map_map] at hmapped
    rw [List.map_map]
    exact hmapped
  have hnodup : (names.map Prod.snd).Nodup := hnames'.nodup_iff.mpr ds'.nodup
  obtain ⟨σ, hσ, hvalue⟩ := exists_bijOn (hnames ▸ ds.nodup) hnodup
  have hpair : ∀ p ∈ pairs, p.1.1 ∈ ds.names ∧ σ p.1.1 = p.2.1 := by
    intro p hp
    have hmem : (p.1.1, p.2.1) ∈ names := List.mem_map_of_mem (f := fun p => (p.1.1, p.2.1)) hp
    exact ⟨hnames ▸ List.mem_map_of_mem hmem, hvalue _ hmem⟩
  obtain ⟨⟨-, hroot⟩, hdefinitions⟩ := hrelated (fun n n' => n ∈ ds.names ∧ σ n = n') hpair
  refine ⟨σ, ⟨?_, ?_⟩, hroot⟩
  · have hsame : {name | name ∈ names.map Prod.snd} = {name | name ∈ ds'.names} :=
      Set.ext fun _ => hnames'.mem_iff
    rwa [hnames, hsame] at hσ
  · intro d hd
    rw [← hleft] at hd
    obtain ⟨p, hp, rfl⟩ := List.mem_map.mp hd
    refine ⟨p.2.2, ?_, hdefinitions p hp⟩
    rw [(hpair p hp).2]
    exact hright.subset (List.mem_map_of_mem hp)

end Inference

end RecordDefinitions
