import RecordDefinitions.Proofs.Schema.Types

/-!
# What is settled when a conversion ends

A conversion that succeeds leaves the definitions alone whose names were reserved before it.
Every name that is reserved on its way has its definition at the end, and this definition is
what the schema is translated to for which the name was reserved. So the definitions at the
end of an import are the finished translations of the schemas that it has come to.
-/

namespace RecordDefinitions.Schema

open Relation Progress

/-- A name is reserved in a conversion or in one that it leads to. -/
def ReservedUnder (s : Setting) (m : Call × Progress) (v : Reservation) : Prop :=
  ∃ n, ReflTransGen (Starts s) m n ∧ Reserves s n v

/-- A name is reserved in the conversion of a property of a record. -/
def ReservedInRecord (s : Setting) (trail : Trail) (schema : Document)
    (context : ReferenceContext) (t : Progress) (v : Reservation) : Prop :=
  ∃ n, Asks s trail schema context t n ∧ ReservedUnder s n v

/-- Between two moments some names are reserved. They were free, no two of them are the same,
and each has got its definition; nothing else has changed about the definitions. -/
structure Settles (s : Setting) (S : Reservation → Prop) (t u : Progress) : Prop where
  grows : t.usedNames ⊆ u.usedNames
  fresh : ∀ v, S v → v.name ∉ t.usedNames
  used : ∀ v, S v → v.name ∈ u.usedNames
  unique : ∀ v v', S v → S v' → v.name = v'.name → v = v'
  finished : ∀ v, S v → ∃ d, u.definitions.find? v.name = some (v.name, d) ∧ Finished s v d ∧
    d.Among s.options u.usedNames
  frame : ∀ name ∈ t.usedNames, u.definitions.find? name = t.definitions.find? name
  covered : ∀ name ∈ u.definitions.names, name ∈ t.definitions.names ∨ ∃ v, S v ∧ v.name = name

variable {s : Setting} {S S' : Reservation → Prop} {t u w : Progress} {v : Reservation}

namespace Settles

theorem of_eq (hnone : ∀ v, ¬ S v) (hnames : u.usedNames = t.usedNames)
    (hdefinitions : u.definitions = t.definitions) : Settles s S t u where
  grows := hnames ▸ List.Subset.refl _
  fresh v hv := absurd hv (hnone v)
  used v hv := absurd hv (hnone v)
  unique v _ hv := absurd hv (hnone v)
  finished v hv := absurd hv (hnone v)
  frame _ _ := by rw [hdefinitions]
  covered _ hname := Or.inl (hdefinitions ▸ hname)

theorem congr (h : Settles s S t u) (hS : ∀ v, S' v ↔ S v) : Settles s S' t u := by
  have hsame : S' = S := funext fun v => propext (hS v)
  rwa [hsame]

/-- What happens after some names were looked up happens after that as well. -/
theorem of_later (h : Settles s S w u) (hnames : w.usedNames = t.usedNames)
    (hdefinitions : w.definitions = t.definitions) : Settles s S t u where
  grows := hnames ▸ h.grows
  fresh := hnames ▸ h.fresh
  used := h.used
  unique := h.unique
  finished := h.finished
  frame := hnames ▸ hdefinitions ▸ h.frame
  covered := hdefinitions ▸ h.covered

theorem trans (h : Settles s S t w) (h' : Settles s S' w u) :
    Settles s (fun v => S v ∨ S' v) t u where
  grows := List.Subset.trans h.grows h'.grows
  fresh := by
    rintro v (hv | hv)
    · exact h.fresh v hv
    · exact fun hm => h'.fresh v hv (h.grows hm)
  used := by
    rintro v (hv | hv)
    · exact h'.grows (h.used v hv)
    · exact h'.used v hv
  unique := by
    rintro v v' (hv | hv) (hv' | hv') hname
    · exact h.unique v v' hv hv' hname
    · exact absurd (hname ▸ h.used v hv) (h'.fresh v' hv')
    · exact absurd (hname ▸ h.used v' hv') (h'.fresh v hv)
    · exact h'.unique v v' hv hv' hname
  finished := by
    rintro v (hv | hv)
    · obtain ⟨d, hd, hfinished, hamong⟩ := h.finished v hv
      refine ⟨d, ?_, hfinished, hamong.mono h'.grows⟩
      rw [h'.frame _ (h.used v hv), hd]
    · exact h'.finished v hv
  frame name hname := (h'.frame name (h.grows hname)).trans (h.frame name hname)
  covered := by
    intro name hname
    rcases h'.covered name hname with hold | ⟨v, hv, rfl⟩
    · rcases h.covered name hold with hold | ⟨v, hv, rfl⟩
      · exact Or.inl hold
      · exact Or.inr ⟨v, Or.inl hv, rfl⟩
    · exact Or.inr ⟨v, Or.inr hv, rfl⟩

/-- A name is reserved, other names are settled, and then it gets its definition. -/
theorem define (hv : v.Extends s t) (h : Settles s S v.progress w) {d : Declaration}
    (hfinished : Finished s v d) (hamong : d.Among s.options w.usedNames) :
    Settles s (fun v' => v' = v ∨ S v') t
      { w with definitions := w.definitions.insert (v.name, d) } := by
  have hreserved : v.name ∈ v.progress.usedNames := by
    rw [hv.usedNames]
    exact List.mem_cons_self
  have hbefore : t.usedNames ⊆ v.progress.usedNames := by
    rw [hv.usedNames]
    exact List.subset_cons_self _ _
  have hother {v' : Reservation} (hS : S v') : v.name ≠ v'.name := fun hname =>
    h.fresh v' hS (hname ▸ hreserved)
  have hfind (name : String) :
      (w.definitions.insert (v.name, d)).find? name =
        if v.name = name then some (v.name, d) else w.definitions.find? name :=
    Catalogue.find?_insert _ _ _
  refine ⟨List.Subset.trans hbefore h.grows, ?_, ?_, ?_, ?_, ?_, ?_⟩
  · rintro v' (rfl | hS)
    · exact hv.fresh
    · exact fun hm => h.fresh v' hS (hbefore hm)
  · rintro v' (rfl | hS)
    · exact h.grows hreserved
    · exact h.used v' hS
  · rintro v' v'' (rfl | hS) (rfl | hS') hname
    · rfl
    · exact absurd hname (hother hS')
    · exact absurd hname.symm (hother hS)
    · exact h.unique v' v'' hS hS' hname
  · rintro v' (rfl | hS)
    · refine ⟨d, ?_, hfinished, hamong⟩
      rw [hfind, if_pos rfl]
    · obtain ⟨d', hd', hrest⟩ := h.finished v' hS
      refine ⟨d', ?_, hrest⟩
      rw [hfind, if_neg (hother hS), hd']
  · intro name hname
    have hne : v.name ≠ name := fun hsame => hv.fresh (hsame ▸ hname)
    rw [hfind, if_neg hne, h.frame name (hbefore hname), hv.definitions, Catalogue.find?_insert]
    exact if_neg hne
  · intro name hname
    rcases Catalogue.mem_names_insert_iff.mp hname with rfl | hname
    · exact Or.inr ⟨v, Or.inl rfl, rfl⟩
    · rcases h.covered name hname with hold | ⟨v', hS, rfl⟩
      · rw [hv.definitions] at hold
        rcases Catalogue.mem_names_insert_iff.mp hold with rfl | hold
        · exact Or.inr ⟨v, Or.inl rfl, rfl⟩
        · exact Or.inl hold
      · exact Or.inr ⟨v', Or.inr hS, rfl⟩

end Settles

/-! ## Lists that are gone through -/

section Lists

variable {α β : Type} {f : Nat × Nat → α → Convert β} {as : List α} {a a' : α} {b : β}
  {i : Nat × Nat}

/-- A list is gone through up to one of its items, and some progress has been made by then. -/
def ComesTo (f : Nat × Nat → α → Convert β) (as : List α) (t : Progress) (a : α) (u : Progress) :
    Prop :=
  ∃ before after i bs, as = before ++ a :: after ∧ outcome (before.mapM (f i)) t = (.ok bs, u)

theorem not_comesTo_nil : ¬ ComesTo f [] t a u := by
  rintro ⟨before, after, i, bs, hlist, -⟩
  exact List.append_ne_nil_of_right_ne_nil before (List.cons_ne_nil a after) hlist.symm

variable (hf : ∀ {i j}, i ≤ j → ∀ a, Approximates endless (f i a) (f j a))
include hf

theorem comesTo_cons_iff (ha : outcome (f i a) t = (.ok b, w)) :
    ComesTo f (a :: as) t a' u ↔ (a' = a ∧ u = t) ∨ ComesTo f as w a' u := by
  constructor
  · rintro ⟨before, after, j, bs, hlist, hbefore⟩
    cases before with
    | nil =>
      cases hlist
      cases hbefore
      exact Or.inl ⟨rfl, rfl⟩
    | cons first before =>
      cases hlist
      rw [List.mapM_cons] at hbefore
      obtain ⟨b', w', ha', hrest⟩ := outcome_bind_eq_ok_iff.mp hbefore
      obtain ⟨rest, w'', hrest, hlast⟩ := outcome_bind_eq_ok_iff.mp hrest
      cases hlast
      obtain ⟨-, rfl⟩ := ok_unique (x := fun i => f i a) (fun hle => hf hle a) ha ha'
      exact Or.inr ⟨before, after, j, rest, rfl, hrest⟩
  · rintro (⟨rfl, rfl⟩ | ⟨before, after, j, bs, rfl, hbefore⟩)
    · exact ⟨[], as, i, [], rfl, rfl⟩
    · refine ⟨a :: before, after, i ⊔ j, b :: bs, rfl, ?_⟩
      have ha' := (hf (le_sup_left (b := j)) a).ok ha
      have hbefore' := (Approximates.mapM fun a _ => hf (le_sup_right (a := i)) a).ok hbefore
      rw [List.mapM_cons, outcome_bind_of_ok ha', outcome_bind_of_ok hbefore']
      rfl

/-- What the items of a list settle one after the other is settled by the list. -/
theorem settles_mapM
    (hmoves : ∀ a, Moves s.options s.resolver.loader (f i a))
    {S : α → Progress → Reservation → Prop}
    (h : ∀ a ∈ as, ∀ t b u, t.Sound s.options s.resolver.loader → outcome (f i a) t = (.ok b, u) →
      Settles s (S a t) t u)
    {bs : List β} (ht : t.Sound s.options s.resolver.loader)
    (hrun : outcome (as.mapM (f i)) t = (.ok bs, u)) :
    Settles s (fun v => ∃ a w, ComesTo f as t a w ∧ S a w v) t u := by
  induction as generalizing t bs with
  | nil =>
    cases hrun
    refine .of_eq ?_ rfl rfl
    rintro v ⟨a, w, hcomes, -⟩
    exact not_comesTo_nil hcomes
  | cons a as ih =>
    rw [List.mapM_cons] at hrun
    obtain ⟨b, w, ha, hrest⟩ := outcome_bind_eq_ok_iff.mp hrun
    obtain ⟨rest, w', hrest, hlast⟩ := outcome_bind_eq_ok_iff.mp hrest
    cases hlast
    have hw := ((hmoves a).steps ht.valid ha).sound ht
    have hfirst := h a List.mem_cons_self t b w ht ha
    have hothers := ih (fun a ha => h a (List.mem_cons_of_mem _ ha)) hw hrest
    refine (hfirst.trans hothers).congr ?_
    intro v
    simp only [comesTo_cons_iff hf ha]
    constructor
    · rintro ⟨a', u', ⟨rfl, rfl⟩ | hcomes, hv⟩
      · exact Or.inl hv
      · exact Or.inr ⟨a', u', hcomes, hv⟩
    · rintro (hv | ⟨a', u', hcomes, hv⟩)
      · exact ⟨a, t, Or.inl ⟨rfl, rfl⟩, hv⟩
      · exact ⟨a', u', Or.inr hcomes, hv⟩

end Lists

/-! ## What is reserved under a conversion -/

section Under

variable {c : Call} {m : Call × Progress} {i : Nat × Nat} {trail : Trail} {schema : Document}
  {context : ReferenceContext}

theorem reservedUnder_iff :
    ReservedUnder s m v ↔ Reserves s m v ∨ ∃ n, Starts s m n ∧ ReservedUnder s n v := by
  constructor
  · rintro ⟨n, hn, hv⟩
    rcases ReflTransGen.cases_head hn with rfl | ⟨next, hstart, hrest⟩
    · exact Or.inl hv
    · exact Or.inr ⟨next, hstart, n, hrest, hv⟩
  · rintro (hv | ⟨next, hstart, n, hrest, hv⟩)
    · exact ⟨m, .refl, hv⟩
    · exact ⟨n, .head hstart hrest, hv⟩

/-- A name is reserved in the conversion of a piece. -/
def ReservedInPiece (s : Setting) (c : Call) (t : Progress) (v : Reservation) : Piece → Prop
  | .known _ | .strange _ => False
  | .inner schema rename _ => ReservedUnder s (⟨c.trail, schema, rename c.hint, c.context⟩, t) v

theorem reservedUnder_pieces_iff {ps : List Piece}
    {whole : List (TypeExpr × Bool) → TypeExpr × Bool} (hform : form c.schema = .pieces ps whole) :
    ReservedUnder s (c, t) v ↔ ∃ p w,
      ComesTo (fun i => Piece.convert (fieldWithin s i) c.trail c.hint c.context) ps t p w ∧
        ReservedInPiece s c w v p := by
  rw [reservedUnder_iff]
  constructor
  · rintro (hv | ⟨n, (hn | hn), hv⟩)
    · cases hv with
      | inPlace hform' => cases hform.symm.trans hform'
      | target hform' => cases hform.symm.trans hform'
    · cases hn with
      | @piece _ _ w before after _ schema rename wrap i types hform' hbefore =>
        cases hform.symm.trans hform'
        exact ⟨_, w, ⟨before, after, i, types, rfl, hbefore⟩, hv⟩
      | property hform' => cases hform.symm.trans hform'
    · cases hn with
      | inPlace hform' => cases hform.symm.trans hform'
      | property hform' => cases hform.symm.trans hform'
  · rintro ⟨p, w, ⟨before, after, i, types, rfl, hbefore⟩, hv⟩
    cases p with
    | known type => exact hv.elim
    | strange warning => exact hv.elim
    | inner schema rename wrap => exact Or.inr ⟨_, .nested (.piece hform hbefore), hv⟩

/-- Under a conversion that reserves a name, it does so first, and all others are reserved in
the record that gets this name. -/
theorem reservedUnder_reserves_iff {v' : Reservation} (h : Reserves s (c, t) v') :
    ReservedUnder s (c, t) v ↔
      v = v' ∨ ReservedInRecord s v'.trail v'.schema v'.context v'.progress v := by
  rw [reservedUnder_iff]
  constructor
  · rintro (hv | ⟨n, (hn | hn), hv⟩)
    · cases h with
      | inPlace hform =>
        cases hv with
        | inPlace _ => exact Or.inl rfl
        | target hform' => cases hform.symm.trans hform'
      | target hform htarget _ _ =>
        cases hv with
        | inPlace hform' => cases hform.symm.trans hform'
        | target hform' htarget' _ _ =>
          cases hform.symm.trans hform'
          cases htarget.symm.trans htarget'
          exact Or.inl rfl
    · cases h with
      | inPlace hform =>
        cases hn with
        | piece hform' => cases hform.symm.trans hform'
        | property _ hasks => exact Or.inr ⟨n, hasks, hv⟩
      | target hform =>
        cases hn with
        | piece hform' => cases hform.symm.trans hform'
        | property hform' => cases hform.symm.trans hform'
    · cases h with
      | inPlace hform =>
        cases hn with
        | inPlace hform' => cases hform.symm.trans hform'
        | property hform' => cases hform.symm.trans hform'
      | target hform htarget hrecord _ =>
        cases hn with
        | inPlace hform' htarget' hother _ =>
          cases hform.symm.trans hform'
          cases htarget.symm.trans htarget'
          exact absurd hrecord hother
        | property hform' htarget' _ _ hasks =>
          cases hform.symm.trans hform'
          cases htarget.symm.trans htarget'
          exact Or.inr ⟨n, hasks, hv⟩
  · rintro (rfl | ⟨n, hasks, hv⟩)
    · exact Or.inl h
    · cases h with
      | inPlace hform => exact Or.inr ⟨n, .nested (.property hform hasks), hv⟩
      | target hform htarget hrecord hnew =>
        exact Or.inr ⟨n, .followed (.property hform htarget hrecord hnew hasks), hv⟩

section Reference

variable {r : String} {x : ReferenceTarget} (hform : form c.schema = .reference r)
  (htarget : outcome (target s r c.context) t = (.ok x, u))
include hform htarget

/-- Nothing is reserved for a target that has a name. -/
theorem not_reservedUnder_known {name : String} (hrecord : isRecord x.schema)
    (hknown : u.named.lookup (targetKey x) = some name) : ¬ ReservedUnder s (c, t) v := by
  rw [reservedUnder_iff]
  rintro (hv | ⟨n, (hn | hn), hv⟩)
  · cases hv with
    | inPlace hform' => cases hform.symm.trans hform'
    | target hform' htarget' _ hnew =>
      cases hform.symm.trans hform'
      cases htarget.symm.trans htarget'
      cases hknown.symm.trans hnew
  · cases hn with
    | piece hform' => cases hform.symm.trans hform'
    | property hform' => cases hform.symm.trans hform'
  · cases hn with
    | inPlace hform' htarget' hother _ =>
      cases hform.symm.trans hform'
      cases htarget.symm.trans htarget'
      exact hother hrecord
    | property hform' htarget' _ hnew _ =>
      cases hform.symm.trans hform'
      cases htarget.symm.trans htarget'
      cases hknown.symm.trans hnew

/-- Under a reference to another schema is reserved what is reserved in its place. -/
theorem reservedUnder_inPlace_iff {next : Trail} (hrecord : ¬ isRecord x.schema)
    (henter : c.trail.enter (targetKey x) r = .ok next) :
    ReservedUnder s (c, t) v ↔
      ReservedUnder s (⟨next, x.schema, c.hint, x.context⟩, u) v := by
  rw [reservedUnder_iff]
  constructor
  · rintro (hv | ⟨n, (hn | hn), hv⟩)
    · cases hv with
      | inPlace hform' => cases hform.symm.trans hform'
      | target hform' htarget' hother _ =>
        cases hform.symm.trans hform'
        cases htarget.symm.trans htarget'
        exact absurd hother hrecord
    · cases hn with
      | piece hform' => cases hform.symm.trans hform'
      | property hform' => cases hform.symm.trans hform'
    · cases hn with
      | inPlace hform' htarget' _ henter' =>
        cases hform.symm.trans hform'
        cases htarget.symm.trans htarget'
        cases henter.symm.trans henter'
        exact hv
      | property hform' htarget' hother _ _ =>
        cases hform.symm.trans hform'
        cases htarget.symm.trans htarget'
        exact absurd hother hrecord
  · intro hv
    exact Or.inr ⟨_, .followed (.inPlace hform htarget hrecord henter), hv⟩

end Reference

end Under

end RecordDefinitions.Schema
