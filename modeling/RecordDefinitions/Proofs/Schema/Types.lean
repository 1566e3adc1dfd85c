import RecordDefinitions.Proofs.Naming.TypeNames
import RecordDefinitions.Proofs.Schema.Reservations
import RecordDefinitions.Proofs.TypeExpr.Normal

/-!
# Types that a conversion gives

A type that a conversion gives names only definitions whose names are in use when the
conversion ends. Under a plain namespace every name that is given is a definition name, and so
the text of every such type is read as that type.
-/

namespace RecordDefinitions

namespace TypeExpr

/-- A type that names only some definitions, and is read as it is written under a plain
namespace. -/
structure Among (o : ImportOptions) (names : List String) (t : TypeExpr) : Prop where
  readable : o.HasPlainNamespace → t.Readable
  references : t.references ⊆ names

namespace Among

variable {o : ImportOptions} {names names' : List String} {t : TypeExpr}

theorem mono (hsub : names ⊆ names') (h : t.Among o names) : t.Among o names' :=
  ⟨h.readable, List.Subset.trans h.references hsub⟩

theorem scalar (kind : ScalarKind) : (TypeExpr.scalar kind).Among o names :=
  ⟨fun _ => .scalar kind, List.nil_subset _⟩

theorem list (h : t.Among o names) : t.list.Among o names :=
  ⟨fun ho => .list (h.readable ho), h.references⟩

theorem map (h : t.Among o names) : t.map.Among o names :=
  ⟨fun ho => .map (h.readable ho), h.references⟩

theorem definition {name : String} (hname : o.HasPlainNamespace → isDefinitionName name.toList)
    (hm : name ∈ names) : (TypeExpr.definition name).Among o names :=
  ⟨fun ho => .definition (hname ho), List.forall_mem_singleton.mpr hm⟩

theorem unionOf {types : List TypeExpr} (h : ∀ t ∈ types, t.Among o names) :
    (TypeExpr.unionOf types).Among o names := by
  refine ⟨fun ho => readable_unionOf_of_forall fun t ht => (h t ht).readable ho, ?_⟩
  intro n hn
  obtain ⟨t, ht, hn⟩ := mem_references_unionOf.mp hn
  exact (h t ht).references hn

end Among

end TypeExpr

/-- The fields of a declaration have types that name only some definitions, and are read as they
are written under a plain namespace. -/
def Declaration.Among (o : ImportOptions) (names : List String) (d : Declaration) : Prop :=
  ∀ f ∈ d.fields.toList, ∃ type : TypeExpr, f.2.type = type.text ∧ type.Among o names

theorem Declaration.Among.mono {o : ImportOptions} {names names' : List String}
    (hsub : names ⊆ names') {d : Declaration} (h : d.Among o names) : d.Among o names' := by
  intro f hf
  obtain ⟨type, htext, htype⟩ := h f hf
  exact ⟨type, htext, htype.mono hsub⟩

namespace Schema

open Relation Progress

/-! ## Pieces and wholes -/

/-- A piece gives types that name what the types inside it name. -/
def Piece.Sound : Piece → Prop
  | .known type => ∀ o names, type.1.Among o names
  | .strange _ => True
  | .inner _ _ wrap =>
    ∀ (o : ImportOptions) names a, a.1.Among o names → (wrap a).1.Among o names

/-- So do the pieces of a form, and the whole that is made of them. -/
def Form.Sound : Form → Prop
  | .reference _ | .record => True
  | .pieces ps whole =>
    (∀ p ∈ ps, p.Sound) ∧
      ∀ (o : ImportOptions) names types, (∀ a ∈ types, a.1.Among o names) →
        (whole types).1.Among o names

theorem sound_pieceUnder {key : String} {rename : String → String} {wrap : TypeExpr → TypeExpr}
    (hwrap : ∀ (o : ImportOptions) names t, t.Among o names → (wrap t).Among o names)
    (schema : Document) : (pieceUnder key rename wrap schema).Sound := by
  unfold pieceUnder
  split
  · intro o names a ha
    exact hwrap o names a.1 ha
  · intro o names
    exact hwrap o names _ (.scalar .mixed)

theorem sound_kindPiece (schema : Document) (kind : String) : (kindPiece schema kind).Sound := by
  unfold kindPiece
  split
  · exact fun _ _ => .scalar .int
  · exact fun _ _ => .scalar .float
  · exact fun _ _ => .scalar .bool
  · exact fun _ _ => .scalar .string
  · exact fun _ _ => .scalar .mixed
  · exact sound_pieceUnder (fun _ _ _ => .list) schema
  · exact sound_pieceUnder (fun _ _ _ => .map) schema
  · trivial

theorem among_literalType (values : List Document) (o : ImportOptions) (names : List String) :
    (literalType values).1.Among o names := by
  apply TypeExpr.Among.unionOf
  intro t ht
  obtain ⟨kind, -, rfl⟩ := List.mem_map.mp ht
  exact .scalar kind

section Wholes

variable {o : ImportOptions} {names : List String} {types : List (TypeExpr × Bool)}
  (h : ∀ a ∈ types, a.1.Among o names)
include h

theorem among_soleType : (soleType types).1.Among o names := by
  cases types with
  | nil => exact .scalar .mixed
  | cons a types => exact h a List.mem_cons_self

theorem among_choiceType (options : List Document) :
    (choiceType options types).1.Among o names := by
  apply TypeExpr.Among.unionOf
  intro t ht
  obtain ⟨a, ha, rfl⟩ := List.mem_map.mp ht
  exact h a ha

theorem among_kindsType (kinds : List String) : (kindsType kinds types).1.Among o names := by
  apply TypeExpr.Among.unionOf
  intro t ht
  obtain ⟨member, hmember, rfl⟩ := List.mem_map.mp ht
  exact h member.2 (List.of_mem_zip (List.mem_filter.mp hmember).1).2

end Wholes

theorem sound_form (schema : Document) : (form schema).Sound := by
  have hsole {p : Piece} (hp : p.Sound) : (Form.pieces [p] soleType).Sound :=
    ⟨List.forall_mem_singleton.mpr hp, fun _ _ _ => among_soleType⟩
  have hnone : (Form.pieces [] soleType).Sound := ⟨by simp, fun _ _ _ => among_soleType⟩
  unfold form
  split
  · split
    · trivial
    · exact hsole (among_literalType _)
    · exact hsole (among_literalType _)
    · refine ⟨?_, fun _ _ _ h => among_choiceType h _⟩
      intro p hp
      obtain ⟨option, -, rfl⟩ := List.mem_map.mp hp
      exact fun _ _ _ ha => ha
    · split
      · trivial
      · split
        · exact hsole (sound_kindPiece schema _)
        · refine ⟨?_, fun _ _ _ h => among_kindsType h _⟩
          intro p hp
          obtain ⟨kind, -, rfl⟩ := List.mem_map.mp hp
          exact sound_kindPiece schema kind
        · split
          · exact hsole (sound_kindPiece schema _)
          · exact hnone
  · exact hnone

/-! ## Names in use -/

/-- A name that an import gives: it is made from some base. -/
def IsGiven (o : ImportOptions) (name : String) : Prop :=
  ∃ used base, name = Naming.uniqueName used (o.qualified (Naming.typeName base "Schema"))

/-- What was read is remembered rightly, targets have names that are in use, and the import has
given these names. -/
structure Progress.Sound (o : ImportOptions) (loader : Loader) (t : Progress) : Prop where
  valid : t.lookup.Valid loader
  orderly : t.Orderly
  given : ∀ name ∈ t.usedNames, IsGiven o name

section Names

variable {o : ImportOptions} {loader : Loader} {t u : Progress}

theorem IsGiven.isDefinitionName {name : String} (h : IsGiven o name)
    (ho : o.HasPlainNamespace) : TypeExpr.isDefinitionName name.toList := by
  obtain ⟨used, base, rfl⟩ := h
  exact Naming.isDefinitionName_uniqueName ho (Naming.isTypeName_typeName base rfl) used

theorem sound_empty : Progress.empty.Sound o loader :=
  ⟨LookupMemory.valid_empty _, orderly_empty, fun _ h => by cases h⟩

theorem Progress.Step.sound (h : Progress.Step o loader t u) (ht : t.Sound o loader) :
    u.Sound o loader := by
  refine ⟨h.valid ht.valid, h.orderly ht.orderly, ?_⟩
  cases h with
  | read | warned | defined => exact ht.given
  | reserved base => exact List.forall_mem_cons.mpr ⟨⟨t.usedNames, base, rfl⟩, ht.given⟩
  | named base => exact List.forall_mem_cons.mpr ⟨⟨t.usedNames, base, rfl⟩, ht.given⟩

theorem Progress.Steps.sound (h : Progress.Steps o loader t u) (ht : t.Sound o loader) :
    u.Sound o loader := by
  induction h with
  | refl => exact ht
  | tail _ hstep ih => exact hstep.sound ih

end Names

/-! ## What comes of lists and of fields -/

section Runs

variable {s : Setting} {t u : Progress}

/-- What every item of a list gives under the names in use then, it gives under those at the
end. -/
theorem forall_of_mapM {α β : Type} {P : List String → β → Prop}
    (hmono : ∀ {names names' b}, names ⊆ names' → P names b → P names' b) {f : α → Convert β}
    (hmoves : ∀ a, Moves s.options s.resolver.loader (f a)) {as : List α}
    (h : ∀ a ∈ as, ∀ t b u, t.Sound s.options s.resolver.loader → outcome (f a) t = (.ok b, u) →
      P u.usedNames b)
    {bs : List β} (ht : t.Sound s.options s.resolver.loader) (hrun : outcome (as.mapM f) t = (.ok bs, u)) :
    ∀ b ∈ bs, P u.usedNames b := by
  induction as generalizing t bs with
  | nil =>
    cases hrun
    simp
  | cons a as ih =>
    rw [List.mapM_cons] at hrun
    obtain ⟨b, w, ha, hrest⟩ := outcome_bind_eq_ok_iff.mp hrun
    obtain ⟨rest, w', hrest, hlast⟩ := outcome_bind_eq_ok_iff.mp hrest
    cases hlast
    have hw := ((hmoves a).steps ht.valid ha).sound ht
    have hsteps := (Moves.mapM fun a _ => hmoves a).steps hw.valid hrest
    refine List.forall_mem_cons.mpr ⟨?_, ?_⟩
    · exact hmono (fun _ hn => hsteps.used hn) (h a List.mem_cons_self t b w ht ha)
    · exact ih (fun a ha => h a (List.mem_cons_of_mem _ ha)) hw hrest

/-- A conversion gives a type that names only definitions whose names are in use. -/
theorem among_of_run {d : Nat} {b : Nat} {c : Call} {a : TypeExpr × Bool}
    (ht : t.Sound s.options s.resolver.loader) (h : outcome (c.run s (b, d)) t = (.ok a, u)) :
    a.1.Among s.options u.usedNames := by
  induction d generalizing c t u a with
  | zero => exact absurd fails_run_zero (not_fails_of_ok h)
  | succ d ih =>
    have hsteps := (moves_fieldWithin (b, d + 1) c.trail c.schema c.hint c.context).steps ht.valid h
    have hu := hsteps.sound ht
    have hsucceeds := succeeds_of_run ht.valid h
    generalize a.1 = type at hsucceeds
    cases hsucceeds with
    | @pieces ps whole types _ hform hpieces =>
      have hform' := sound_form c.schema
      rw [hform] at hform'
      apply hform'.2
      refine forall_of_mapM (P := fun names a => a.1.Among s.options names) TypeExpr.Among.mono
        (fun p => moves_piece (b, d) _ _ _ p) ?_ ht hpieces
      intro p hp t a u ht hpiece
      have hsound := hform'.1 p hp
      cases p with
      | known type =>
        cases hpiece
        exact hsound _ _
      | strange warning =>
        obtain ⟨_, w, hwarn, hlast⟩ := outcome_bind_eq_ok_iff.mp hpiece
        cases hlast
        exact .scalar .mixed
      | inner schema rename wrap =>
        obtain ⟨a, w, hinner, hlast⟩ := outcome_bind_eq_ok_iff.mp hpiece
        cases hlast
        exact hsound _ _ a (ih (c := ⟨c.trail, schema, rename c.hint, c.context⟩) ht hinner)
    | @reserved v decl w hreserves hrecord =>
      have hextends := hreserves.extends ht.valid
      have hv := hextends.steps.sound ht
      have hused : v.name ∈ w.usedNames := by
        have hmoves := moves_convertRecord (s := s.within b) (moves_fieldWithin (s := s) (b, d))
          v.trail v.schema v.context
        apply (hmoves.steps hv.valid hrecord).used
        rw [hextends.usedNames]
        exact List.mem_cons_self
      exact .definition (hu.given _ hused).isDefinitionName hused
    | known hform htarget hrecord hknown =>
      have hname := hu.orderly.used _ _ hknown
      exact .definition (hu.given _ hname).isDefinitionName hname
    | inPlace hform htarget hrecord henter hinner =>
      have hw := ((moves_target _ _).steps ht.valid htarget).sound ht
      exact ih hw hinner

end Runs

end Schema

end RecordDefinitions
