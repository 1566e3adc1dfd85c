import Mathlib.Order.Lattice.Nat
import RecordDefinitions.Proofs.Schema.Progress

/-!
# Conversions inside conversions

The conversion of a field starts others: those of its pieces and of the properties of
records, and that of the target of a reference. Each is started in a certain progress,
after those before it have succeeded. How it ends decides about the conversion that
has started it: both fail together, and one succeeds only with the other.
-/

namespace RecordDefinitions.Schema

open Relation

/-- The conversion of a field by its arguments. -/
structure Call where
  trail : Trail
  schema : Document
  hint : String
  context : ReferenceContext

/-- The conversion of fields under two bounds, on parts and on fields. -/
def fieldWithin (s : Setting) (i : Nat × Nat) : FieldType := fieldType (s.within i.1) i.2

/-- A conversion under two bounds. -/
def Call.run (s : Setting) (i : Nat × Nat) (c : Call) : Convert (TypeExpr × Bool) :=
  fieldWithin s i c.trail c.schema c.hint c.context

/-- The conversion of one property of a record. -/
def namedField (inner : FieldType) (trail : Trail) (c : Composition) (p : String × Property) :
    Convert (String × FieldDeclaration) := do
  return (p.1, ← convertField inner trail p.1 (c.required.contains p.1) p.2)

/-- The conversion of a record under two bounds. -/
def recordWithin (s : Setting) (i : Nat × Nat) (trail : Trail) (schema : Document)
    (context : ReferenceContext) : Convert Declaration :=
  convertRecord (s.within i.1) (fieldWithin s i) trail schema context

/-- A record that is converted from some progress on asks for one of its properties. -/
inductive Asks (s : Setting) (trail : Trail) (schema : Document) (context : ReferenceContext) :
    Progress → Call × Progress → Prop
  | property {t u v : Progress} {depth : Nat} {comp : Composition}
    {before after : List (String × Property)} {p : String × Property} {i : Nat × Nat}
    {fields : List (String × FieldDeclaration)} :
    outcome (compose s depth trail schema context .empty) t = (.ok comp, u) →
    comp.properties.toList = before ++ p :: after →
    outcome (before.mapM (namedField (fieldWithin s i) trail comp)) u = (.ok fields, v) →
      Asks s trail schema context t (⟨trail, p.2.schema, Naming.pascal p.1, p.2.context⟩, v)

/-- A conversion starts another one without following a reference: that of a piece, or
of a property of a record that stands in the place. -/
inductive Nests (s : Setting) : Call × Progress → Call × Progress → Prop
  | piece {c : Call} {t u : Progress} {before after : List Piece}
    {whole : List (TypeExpr × Bool) → TypeExpr × Bool} {schema : Document}
    {rename : String → String} {wrap : TypeExpr × Bool → TypeExpr × Bool} {i : Nat × Nat}
    {types : List (TypeExpr × Bool)} :
    form c.schema = .pieces (before ++ .inner schema rename wrap :: after) whole →
    outcome (before.mapM (Piece.convert (fieldWithin s i) c.trail c.hint c.context)) t =
      (.ok types, u) →
      Nests s (c, t) (⟨c.trail, schema, rename c.hint, c.context⟩, u)
  | property {c : Call} {t : Progress} {next : Call × Progress} :
    form c.schema = .record →
    Asks s c.trail c.schema c.context (t.reserving s.options c.hint) next → Nests s (c, t) next

/-- A conversion follows a reference: to a schema that stands in its place, or to a
record that has no name so far, a property of which is then converted. -/
inductive Follows (s : Setting) : Call × Progress → Call × Progress → Prop
  | inPlace {c : Call} {t u : Progress} {r : String} {x : ReferenceTarget} {trail : Trail} :
    form c.schema = .reference r → outcome (target s r c.context) t = (.ok x, u) →
    ¬ isRecord x.schema → c.trail.enter (targetKey x) r = .ok trail →
      Follows s (c, t) (⟨trail, x.schema, c.hint, x.context⟩, u)
  | property {c : Call} {t u : Progress} {r : String} {x : ReferenceTarget}
    {next : Call × Progress} :
    form c.schema = .reference r → outcome (target s r c.context) t = (.ok x, u) →
    isRecord x.schema → u.named.lookup (targetKey x) = none →
    Asks s c.trail x.schema x.context
      (u.naming s.options (targetKey x) ((suggestedName? x).getD c.hint)) next →
      Follows s (c, t) next

/-- A conversion starts another one. -/
inductive Starts (s : Setting) (m n : Call × Progress) : Prop
  | nested : Nests s m n → Starts s m n
  | followed : Follows s m n → Starts s m n

variable {s : Setting}

/-! ## Bounds -/

theorem fieldWithin_approximates {i j : Nat × Nat} (h : i ≤ j) (trail : Trail)
    (schema : Document) (hint : String) (context : ReferenceContext) :
    Approximates endless (fieldWithin s i trail schema hint context)
      (fieldWithin s j trail schema hint context) :=
  fieldType_approximates h.1 h.2 trail schema hint context

theorem run_approximates {i j : Nat × Nat} (h : i ≤ j) (c : Call) :
    Approximates endless (c.run s i) (c.run s j) :=
  fieldWithin_approximates h _ _ _ _

theorem namedField_approximates {i j : Nat × Nat} (h : i ≤ j) (trail : Trail) (c : Composition)
    (p : String × Property) :
    Approximates endless (namedField (fieldWithin s i) trail c p)
      (namedField (fieldWithin s j) trail c p) :=
  (approximates_congruence.field (fieldWithin_approximates h trail) _ _ _).bind fun _ => .refl _

theorem piece_approximates {i j : Nat × Nat} (h : i ≤ j) (trail : Trail) (hint : String)
    (context : ReferenceContext) (p : Piece) :
    Approximates endless (p.convert (fieldWithin s i) trail hint context)
      (p.convert (fieldWithin s j) trail hint context) :=
  approximates_congruence.piece (fieldWithin_approximates h trail) hint context p

theorem compose_within (b depth : Nat) (trail : Trail) (schema : Document)
    (context : ReferenceContext) (c : Composition) :
    compose (s.within b) depth trail schema context c = compose s depth trail schema context c := by
  induction depth generalizing trail schema context c with
  | zero => rfl
  | succ depth ih =>
    rw [compose, compose]
    simp only [ih]
    rfl

theorem recordWithin_approximates {i j : Nat × Nat} (h : i ≤ j) (trail : Trail)
    (schema : Document) (context : ReferenceContext) :
    Approximates endless (recordWithin s i trail schema context)
      (recordWithin s j trail schema context) :=
  convertRecord_approximates h.1 (fieldWithin_approximates h) trail schema context

theorem recordWithin_eq (i : Nat × Nat) (trail : Trail) (schema : Document)
    (context : ReferenceContext) :
    recordWithin s i trail schema context =
      compose s i.1 trail schema context .empty >>= fun c =>
        c.properties.toList.mapM (namedField (fieldWithin s i) trail c) >>= fun fields =>
          pure { Declaration.empty with fields := Catalogue.ofList fields } := by
  rw [← compose_within i.1]
  rfl

theorem compose_mono {d d' : Nat} (h : d ≤ d') (trail : Trail) (schema : Document)
    (context : ReferenceContext) (c : Composition) :
    Approximates endless (compose s d trail schema context c)
      (compose s d' trail schema context c) := by
  have happrox : Approximates endless (compose (s.within 0) d trail schema context c)
      (compose (s.within 0) d' trail schema context c) :=
    compose_approximates h trail schema context c
  rwa [compose_within, compose_within] at happrox

/-- What putting parts together gives stays under a greater bound. -/
theorem composed_mono (resolver : ReferenceResolver) {d d' : Nat} (h : d ≤ d') (trail : Trail)
    (schema : Document) (context : ReferenceContext) (c : Composition) :
    composed resolver d trail schema context c = .error endless ∨
      composed resolver d trail schema context c = composed resolver d' trail schema context c := by
  let s : Setting := ⟨.usual, resolver, 0⟩
  have hvalid := LookupMemory.valid_empty resolver.loader
  obtain ⟨m, -, hd⟩ := searches_compose (s := s) d trail schema context c .empty hvalid
  obtain ⟨m', -, hd'⟩ := searches_compose (s := s) d' trail schema context c .empty hvalid
  rcases compose_mono (s := s) h trail schema context c .empty with hstop | hsame
  · exact Or.inl ((congrArg Prod.fst hd).symm.trans hstop)
  · exact Or.inr (congrArg Prod.fst (hd.symm.trans (hsame.trans hd')))

/-! ## Failures of records -/

variable {t : Progress} {trail : Trail} {schema : Document} {context : ReferenceContext}
  {e : Failure} {i : Nat × Nat}

theorem fails_namedField_iff {c : Composition} {p : String × Property} :
    Fails (namedField (fieldWithin s i) trail c p) t e ↔
      Fails (Call.run s i ⟨trail, p.2.schema, Naming.pascal p.1, p.2.context⟩) t e := by
  unfold namedField convertField
  rw [fails_bind_pure_iff, fails_bind_pure_iff]
  rfl

theorem fails_record_iff :
    Fails (recordWithin s i trail schema context) t e ↔
      Fails (compose s i.1 trail schema context .empty) t e ∨
        ∃ comp u, outcome (compose s i.1 trail schema context .empty) t = (.ok comp, u) ∧
          Fails (comp.properties.toList.mapM (namedField (fieldWithin s i) trail comp)) u e := by
  rw [recordWithin_eq, fails_bind_iff]
  simp only [fails_bind_pure_iff]

/-- A record fails with a property that it asks for, unless its bounds do not suffice to
get there. -/
theorem Asks.passes {n : Call × Progress} (h : Asks s trail schema context t n) :
    ∃ j, ∀ i e, Fails (n.1.run s i) n.2 e →
      (j ≤ i ∨ ¬ Fails (recordWithin s i trail schema context) t endless) →
        Fails (recordWithin s i trail schema context) t e := by
  cases h with
  | @property u v depth comp before after p j fields hcompose hprops hbefore =>
  refine ⟨(depth, 0) ⊔ j, fun i e hfails hreach => ?_⟩
  have hcomposed : outcome (compose s i.1 trail schema context .empty) t = (.ok comp, u) := by
    refine ok_of_suffices (fun hle => compose_mono hle trail schema context .empty) hcompose ?_
    refine hreach.imp (fun hle => (Nat.le_max_left depth j.1).trans hle.1) fun hgoes hstop => ?_
    exact hgoes (fails_record_iff.mpr (Or.inl hstop))
  have hbefore' : outcome (before.mapM (namedField (fieldWithin s i) trail comp)) u =
      (.ok fields, v) := by
    refine ok_of_suffices (x := fun i => before.mapM (namedField (fieldWithin s i) trail comp))
      (fun hle => .mapM fun p _ => namedField_approximates hle trail comp p) hbefore ?_
    refine hreach.imp (fun hle => le_sup_right.trans hle) fun hgoes hstop => ?_
    refine hgoes (fails_record_iff.mpr (Or.inr ⟨comp, u, hcomposed, ?_⟩))
    rw [hprops]
    exact fails_mapM_append hstop
  rw [fails_record_iff]
  refine Or.inr ⟨comp, u, hcomposed, ?_⟩
  rw [hprops, fails_mapM_iff]
  exact ⟨before, p, after, fields, v, rfl, hbefore', fails_namedField_iff.mpr hfails⟩

/-- A record fails by itself, or with a property that it asks for. -/
theorem exists_asks_of_fails (h : Fails (recordWithin s i trail schema context) t e) :
    Fails (compose s i.1 trail schema context .empty) t e ∨
      ∃ n, Asks s trail schema context t n ∧ Fails (n.1.run s i) n.2 e := by
  rcases fails_record_iff.mp h with hstop | ⟨comp, u, hcomp, hfields⟩
  · exact Or.inl hstop
  · obtain ⟨before, p, after, fields, v, hprops, hbefore, hp⟩ := fails_mapM_iff.mp hfields
    exact Or.inr ⟨_, .property hcomp hprops hbefore, fails_namedField_iff.mp hp⟩

/-- If no bounds suffice for a record whose parts can be put together, then for one of
its properties none do. -/
theorem exists_asks_of_endless {depth : Nat}
    (hparts : ¬ Fails (compose s depth trail schema context .empty) t endless)
    (h : ∀ i, Fails (recordWithin s i trail schema context) t endless) :
    ∃ n, Asks s trail schema context t n ∧ ∀ i, Fails (n.1.run s i) n.2 endless := by
  rcases exists_outcome (compose s depth trail schema context .empty) t with
    ⟨e, he⟩ | ⟨comp, u, hcomp⟩
  · have hrecord := h (depth, 0)
    rw [fails_record_iff] at hrecord
    rcases hrecord with hstop | ⟨comp, u, hcomp, -⟩
    · exact absurd hstop hparts
    · exact absurd he (not_fails_of_ok hcomp)
  · have hall (i : Nat × Nat) :
        Fails (comp.properties.toList.mapM (namedField (fieldWithin s i) trail comp)) u endless := by
      have hle : i ≤ (max i.1 depth, i.2) := ⟨Nat.le_max_left _ _, le_rfl⟩
      have hcomp' := (compose_mono (Nat.le_max_right i.1 depth) _ _ _ _).ok hcomp
      have hfields : Fails (comp.properties.toList.mapM
          (namedField (fieldWithin s (max i.1 depth, i.2)) trail comp)) u endless := by
        rcases fails_record_iff.mp (h (max i.1 depth, i.2)) with hstop | ⟨comp', u', hok, hfails⟩
        · exact absurd hstop (not_fails_of_ok hcomp')
        · rw [hcomp'] at hok
          cases hok
          exact hfails
      exact (Approximates.mapM fun p _ => namedField_approximates hle trail comp p).stops hfields
    obtain ⟨before, p, after, j, fields, v, hprops, hbefore, hp⟩ :=
      exists_stopping_item (f := fun i => namedField (fieldWithin s i) trail comp)
        (fun hle p => namedField_approximates hle trail comp p) hall
    exact ⟨_, .property hcomp hprops hbefore, fun i => fails_namedField_iff.mp (hp i)⟩

/-! ## Failures of fields -/

variable {c : Call} {b d : Nat}

theorem fails_run_zero : Fails (c.run s (b, 0)) t endless := rfl

theorem fails_run_succ_iff :
    Fails (c.run s (b, d + 1)) t e ↔
      Fails ((form c.schema).convert (s.within b) (fieldWithin s (b, d)) c.trail c.schema c.hint
        c.context) t e := by
  unfold Call.run fieldWithin
  rw [fieldType_succ]
  exact fails_bind_pure_iff

theorem fails_run_pieces_iff {ps : List Piece} {whole : List (TypeExpr × Bool) → TypeExpr × Bool}
    (hform : form c.schema = .pieces ps whole) :
    Fails (c.run s (b, d + 1)) t e ↔
      Fails (ps.mapM (Piece.convert (fieldWithin s (b, d)) c.trail c.hint c.context)) t e := by
  rw [fails_run_succ_iff, hform]
  exact fails_bind_pure_iff

theorem fails_piece_iff {schema : Document} {rename : String → String}
    {wrap : TypeExpr × Bool → TypeExpr × Bool} :
    Fails ((Piece.inner schema rename wrap).convert (fieldWithin s i) c.trail c.hint c.context) t e ↔
      Fails (Call.run s i ⟨c.trail, schema, rename c.hint, c.context⟩) t e :=
  fails_bind_pure_iff

theorem fails_define_iff {name : String} :
    Fails (define (s.within b) (fieldWithin s (b, d)) trail name schema context >>= fun _ =>
      pure name) t e ↔ Fails (recordWithin s (b, d) trail schema context) t e := by
  rw [fails_bind_pure_iff]
  unfold define
  rw [fails_bind_iff]
  constructor
  · rintro (h | ⟨_, _, _, h⟩)
    · exact h
    · cases h
  · exact Or.inl

theorem fails_run_record_iff (hform : form c.schema = .record) :
    Fails (c.run s (b, d + 1)) t e ↔
      Fails (recordWithin s (b, d) c.trail c.schema c.context) (t.reserving s.options c.hint) e := by
  rw [fails_run_succ_iff, hform, ← fails_define_iff]
  exact fails_bind_pure_iff

theorem fails_defineOnce_iff {x : ReferenceTarget} {base : String}
    (hnew : t.named.lookup (targetKey x) = none) :
    Fails (defineOnce (s.within b) (fieldWithin s (b, d)) trail x base) t e ↔
      Fails (recordWithin s (b, d) trail x.schema x.context)
        (t.naming s.options (targetKey x) base) e := by
  rw [← fails_define_iff]
  unfold Fails
  rw [outcome_defineOnce, hnew]
  rfl

theorem outcome_typeOfReference {inner : FieldType} {r hint : String} {x : ReferenceTarget}
    {u : Progress} (htarget : outcome (target s r context) t = (.ok x, u)) :
    outcome (typeOfReference (s.within b) inner r trail schema hint context) t =
      outcome (if isRecord x.schema then do
          return (.definition (← targetDefinition (s.within b) inner trail x hint), false)
        else do
          let next ← ofExcept (trail.enter (targetKey x) r)
          inner next x.schema hint x.context) u :=
  outcome_bind_of_ok htarget

/-- A reference leads to a conversion in its place. -/
theorem fails_run_inPlace_iff {r : String} {x : ReferenceTarget} {u : Progress} {next : Trail}
    (hform : form c.schema = .reference r) (htarget : outcome (target s r c.context) t = (.ok x, u))
    (hrecord : ¬ isRecord x.schema) (henter : c.trail.enter (targetKey x) r = .ok next) :
    Fails (c.run s (b, d + 1)) t e ↔
      Fails (Call.run s (b, d) ⟨next, x.schema, c.hint, x.context⟩) u e := by
  rw [fails_run_succ_iff, hform]
  unfold Fails
  rw [Form.convert, outcome_typeOfReference htarget, if_neg hrecord, henter]
  rfl

/-- A reference leads to a definition. -/
theorem fails_run_defined_iff {r : String} {x : ReferenceTarget} {u : Progress}
    (hform : form c.schema = .reference r) (htarget : outcome (target s r c.context) t = (.ok x, u))
    (hrecord : isRecord x.schema) :
    Fails (c.run s (b, d + 1)) t e ↔
      Fails (defineOnce (s.within b) (fieldWithin s (b, d)) c.trail x
        ((suggestedName? x).getD c.hint)) u e := by
  rw [fails_run_succ_iff, hform]
  unfold Fails
  rw [Form.convert, outcome_typeOfReference htarget, if_pos hrecord]
  exact fails_bind_pure_iff

/-- A conversion fails with one that it has started, unless its bounds do not suffice to
get there. -/
theorem Starts.passes {n : Call × Progress} (h : Starts s (c, t) n) :
    ∃ j, ∀ i e, Fails (n.1.run s i) n.2 e →
      (j ≤ i ∨ ¬ Fails (c.run s (i.1, i.2 + 1)) t endless) →
        Fails (c.run s (i.1, i.2 + 1)) t e := by
  rcases h with h | h
  · cases h with
    | @piece _ _ u before after whole schema rename wrap j types hform hbefore =>
      refine ⟨j, fun i e hfails hreach => ?_⟩
      have hbefore' : outcome (before.mapM
          (Piece.convert (fieldWithin s i) c.trail c.hint c.context)) t = (.ok types, u) := by
        refine ok_of_suffices
          (x := fun i => before.mapM (Piece.convert (fieldWithin s i) c.trail c.hint c.context))
          (fun hle => .mapM fun p _ => piece_approximates hle _ _ _ p) hbefore ?_
        refine hreach.imp_right fun hgoes hstop => ?_
        exact hgoes ((fails_run_pieces_iff hform).mpr (fails_mapM_append hstop))
      rw [fails_run_pieces_iff hform, fails_mapM_iff]
      exact ⟨before, _, after, types, u, rfl, hbefore', fails_piece_iff.mpr hfails⟩
    | property hform hasks =>
      obtain ⟨j, hj⟩ := hasks.passes
      refine ⟨j, fun i e hfails hreach => ?_⟩
      rw [fails_run_record_iff hform] at hreach ⊢
      exact hj i e hfails hreach
  · cases h with
    | inPlace hform htarget hrecord henter =>
      refine ⟨0, fun i e hfails _ => ?_⟩
      rw [fails_run_inPlace_iff hform htarget hrecord henter]
      exact hfails
    | property hform htarget hrecord hnew hasks =>
      obtain ⟨j, hj⟩ := hasks.passes
      refine ⟨j, fun i e hfails hreach => ?_⟩
      rw [fails_run_defined_iff hform htarget hrecord, fails_defineOnce_iff hnew] at hreach ⊢
      exact hj i e hfails hreach

/-- Bounds that do not suffice for a conversion do not suffice for one that starts it. -/
theorem Starts.stops {n : Call × Progress} (h : Starts s (c, t) n)
    (hn : Fails (n.1.run s i) n.2 endless) : Fails (c.run s (i.1, i.2 + 1)) t endless := by
  obtain ⟨j, hj⟩ := h.passes
  by_contra hgoes
  exact hgoes (hj i endless hn (Or.inr hgoes))

theorem Starts.fails_of {n : Call × Progress} (h : Starts s (c, t) n) (he : e ≠ endless)
    (hn : Fails (n.1.run s i) n.2 e) : ∃ k, Fails (c.run s k) t e := by
  obtain ⟨j, hj⟩ := h.passes
  exact ⟨_, hj (i ⊔ j) e ((run_approximates le_sup_left n.1).fails he hn) (Or.inl le_sup_right)⟩

/-! ## Where failures come from -/

/-- The properties of a schema with its parts are found, or fail to be, in so many
steps. -/
def Assembles (resolver : ReferenceResolver) (trail : Trail) (schema : Document)
    (context : ReferenceContext) : Prop :=
  ∃ depth, composed resolver depth trail schema context .empty ≠ .error endless

/-- A conversion fails by itself: its reference leads nowhere or to a target that is
being followed already, or the parts of its record fail to be put together. -/
inductive Halts (s : Setting) : Call × Progress → Failure → Prop
  | unresolved {c : Call} {t : Progress} {r : String} {e : Failure} :
    form c.schema = .reference r → targetOf s.resolver r c.context = .error e →
      Halts s (c, t) e
  | closed {c : Call} {t : Progress} {r : String} {x : ReferenceTarget} {e : Failure} :
    form c.schema = .reference r → targetOf s.resolver r c.context = .ok x →
    ¬ isRecord x.schema → c.trail.enter (targetKey x) r = .error e → Halts s (c, t) e
  | parts {c : Call} {t : Progress} {depth : Nat} {e : Failure} :
    form c.schema = .record →
    composed s.resolver depth c.trail c.schema c.context .empty = .error e → e ≠ endless →
      Halts s (c, t) e
  | targetParts {c : Call} {t : Progress} {r : String} {x : ReferenceTarget} {depth : Nat}
    {e : Failure} :
    form c.schema = .reference r → targetOf s.resolver r c.context = .ok x →
    isRecord x.schema → t.named.lookup (targetKey x) = none →
    composed s.resolver depth c.trail x.schema x.context .empty = .error e → e ≠ endless →
      Halts s (c, t) e

/-- A reference is looked up without changing which targets have names. -/
theorem exists_outcome_target (ht : t.lookup.Valid s.resolver.loader) (r : String)
    (context : ReferenceContext) :
    ∃ u : Progress, u.lookup.Valid s.resolver.loader ∧ u.named = t.named ∧
      outcome (target s r context) t = (targetOf s.resolver r context, u) := by
  obtain ⟨m, hm, houtcome⟩ := searches_target r context t ht
  exact ⟨{ t with lookup := m }, hm, rfl, houtcome⟩

theorem fails_run_of_target {r : String} (hform : form c.schema = .reference r)
    (h : Fails (target s r c.context) t e) : Fails (c.run s (b, d + 1)) t e := by
  rw [fails_run_succ_iff, hform]
  exact fails_bind_iff.mpr (Or.inl h)

theorem fails_run_of_enter {r : String} {x : ReferenceTarget} {u : Progress}
    (hform : form c.schema = .reference r) (htarget : outcome (target s r c.context) t = (.ok x, u))
    (hrecord : ¬ isRecord x.schema) (henter : c.trail.enter (targetKey x) r = .error e) :
    Fails (c.run s (b, d + 1)) t e := by
  rw [fails_run_succ_iff, hform]
  unfold Fails
  rw [Form.convert, outcome_typeOfReference htarget, if_neg hrecord, henter]
  rfl

theorem fails_compose_iff {depth : Nat} (ht : t.lookup.Valid s.resolver.loader) :
    Fails (compose s depth trail schema context .empty) t e ↔
      composed s.resolver depth trail schema context .empty = .error e := by
  obtain ⟨m, -, houtcome⟩ := searches_compose depth trail schema context .empty t ht
  unfold Fails
  rw [houtcome]

/-- The first property of a record is asked for at once. -/
theorem exists_asks_first {depth : Nat} {comp : Composition} {p : String × Property}
    {after : List (String × Property)} (ht : t.lookup.Valid s.resolver.loader)
    (hcomp : composed s.resolver depth trail schema context .empty = .ok comp)
    (hprops : comp.properties.toList = p :: after) :
    ∃ u, Asks s trail schema context t
      (⟨trail, p.2.schema, Naming.pascal p.1, p.2.context⟩, u) := by
  obtain ⟨m, -, houtcome⟩ := searches_compose (s := s) depth trail schema context .empty t ht
  rw [hcomp] at houtcome
  have hlist : comp.properties.toList = [] ++ p :: after := hprops
  exact ⟨_, .property (i := 0) houtcome hlist rfl⟩

theorem fails_record_of_composed {depth : Nat} (ht : t.lookup.Valid s.resolver.loader)
    (h : composed s.resolver depth trail schema context .empty = .error e) :
    Fails (recordWithin s (depth, d) trail schema context) t e :=
  fails_record_iff.mpr (Or.inl ((fails_compose_iff ht).mpr h))

/-- What becomes of a conversion whose schema is a reference: it fails at once, or does
not since the target has a name, or fails with another conversion or with the record that
it defines. -/
inductive Turns (s : Setting) (c : Call) (t : Progress) (r : String) : Prop
  | halted {e : Failure} :
    Halts s (c, t) e → e ≠ endless → (∀ b d, Fails (c.run s (b, d + 1)) t e) → Turns s c t r
  | known : (∀ b d e, ¬ Fails (c.run s (b, d + 1)) t e) → Turns s c t r
  | inPlace {n : Call × Progress} :
    Follows s (c, t) n →
    (∀ b d e, Fails (c.run s (b, d + 1)) t e ↔ Fails (n.1.run s (b, d)) n.2 e) → Turns s c t r
  | defined {x : ReferenceTarget} {u : Progress} :
    targetOf s.resolver r c.context = .ok x → u.lookup.Valid s.resolver.loader →
    isRecord x.schema → t.named.lookup (targetKey x) = none →
    (∀ n, Asks s c.trail x.schema x.context u n → Follows s (c, t) n) →
    (∀ b d e, Fails (c.run s (b, d + 1)) t e ↔
      Fails (recordWithin s (b, d) c.trail x.schema x.context) u e) → Turns s c t r

theorem turns_of_reference {r : String} (ht : t.lookup.Valid s.resolver.loader)
    (hform : form c.schema = .reference r) : Turns s c t r := by
  obtain ⟨u, hu, hnamed, htarget⟩ := exists_outcome_target ht r c.context
  cases hx : targetOf s.resolver r c.context with
  | error e =>
    rw [hx] at htarget
    exact .halted (.unresolved hform hx) (fun he => targetOf_ne_endless (he ▸ hx))
      fun b d => fails_run_of_target hform (congrArg Prod.fst htarget)
  | ok x =>
    rw [hx] at htarget
    by_cases hrecord : isRecord x.schema
    · cases hknown : u.named.lookup (targetKey x) with
      | some name =>
        refine .known fun b d e h => ?_
        rw [fails_run_defined_iff hform htarget hrecord] at h
        unfold Fails at h
        rw [outcome_defineOnce, hknown] at h
        cases h
      | none =>
        refine .defined (u := u.naming s.options (targetKey x) ((suggestedName? x).getD c.hint))
          hx hu hrecord (hnamed ▸ hknown)
          (fun n hasks => .property hform htarget hrecord hknown hasks) fun b d e => ?_
        rw [fails_run_defined_iff hform htarget hrecord, fails_defineOnce_iff hknown]
    · cases henter : c.trail.enter (targetKey x) r with
      | error e =>
        exact .halted (.closed hform hx hrecord henter) (fun he => enter_ne_endless (he ▸ henter))
          fun b d => fails_run_of_enter hform htarget hrecord henter
      | ok next =>
        exact .inPlace (.inPlace hform htarget hrecord henter)
          fun b d e => fails_run_inPlace_iff hform htarget hrecord henter

/-- A conversion that fails does so by itself or with one that it starts. -/
theorem halts_or_starts (ht : t.lookup.Valid s.resolver.loader) (he : e ≠ endless)
    (h : Fails (c.run s (b, d + 1)) t e) :
    Halts s (c, t) e ∨ ∃ n, Starts s (c, t) n ∧ Fails (n.1.run s (b, d)) n.2 e := by
  cases hform : form c.schema with
  | pieces ps whole =>
    rw [fails_run_pieces_iff hform, fails_mapM_iff] at h
    obtain ⟨before, p, after, types, u, rfl, hbefore, hp⟩ := h
    cases p with
    | known type => cases hp
    | strange warning => cases hp
    | inner schema rename wrap =>
      exact Or.inr ⟨_, .nested (.piece hform hbefore), fails_piece_iff.mp hp⟩
  | record =>
    rw [fails_run_record_iff hform] at h
    rcases exists_asks_of_fails h with hstop | ⟨n, hasks, hn⟩
    · rw [fails_compose_iff (t := t.reserving s.options c.hint) ht] at hstop
      exact Or.inl (.parts hform hstop he)
    · exact Or.inr ⟨n, .nested (.property hform hasks), hn⟩
  | reference r =>
    cases turns_of_reference ht hform with
    | halted hhalts _ hfails =>
      rw [h.unique (hfails b d)]
      exact Or.inl hhalts
    | known hgoes => exact absurd h (hgoes b d e)
    | inPlace hstep hiff => exact Or.inr ⟨_, .followed hstep, (hiff b d e).mp h⟩
    | defined hx hu hrecord hnew hstep hiff =>
      rcases exists_asks_of_fails ((hiff b d e).mp h) with hstop | ⟨n, hasks, hn⟩
      · exact Or.inl (.targetParts hform hx hrecord hnew ((fails_compose_iff hu).mp hstop) he)
      · exact Or.inr ⟨n, .followed (hstep n hasks), hn⟩

theorem Halts.fails (h : Halts s (c, t) e) (ht : t.lookup.Valid s.resolver.loader) :
    ∃ i, Fails (c.run s i) t e := by
  cases h with
  | unresolved hform hx =>
    obtain ⟨u, -, -, htarget⟩ := exists_outcome_target ht _ c.context
    rw [hx] at htarget
    exact ⟨(0, 1), fails_run_of_target hform (congrArg Prod.fst htarget)⟩
  | closed hform hx hrecord henter =>
    obtain ⟨u, -, -, htarget⟩ := exists_outcome_target ht _ c.context
    rw [hx] at htarget
    exact ⟨(0, 1), fails_run_of_enter hform htarget hrecord henter⟩
  | parts hform hparts he =>
    rename_i depth
    refine ⟨(depth, 1), ?_⟩
    rw [fails_run_record_iff hform]
    exact fails_record_of_composed (t := t.reserving s.options c.hint) ht hparts
  | targetParts hform hx hrecord hnew hparts he =>
    rename_i r x depth
    obtain ⟨u, hu, hnamed, htarget⟩ := exists_outcome_target ht r c.context
    rw [hx] at htarget
    refine ⟨(depth, 1), ?_⟩
    rw [fails_run_defined_iff hform htarget hrecord, fails_defineOnce_iff (hnamed ▸ hnew)]
    exact fails_record_of_composed (t := u.naming _ _ _) hu hparts

theorem not_fails_of_assembles {depth : Nat} (ht : t.lookup.Valid s.resolver.loader)
    (h : composed s.resolver depth trail schema context .empty ≠ .error endless) :
    ¬ Fails (compose s depth trail schema context .empty) t endless :=
  fun hstop => h ((fails_compose_iff ht).mp hstop)

/-- If no bounds suffice for a conversion, then it starts one for which none do. -/
theorem exists_starts_of_endless (ht : t.lookup.Valid s.resolver.loader)
    (hparts : form c.schema = .record → Assembles s.resolver c.trail c.schema c.context)
    (htarget : ∀ r x, form c.schema = .reference r → targetOf s.resolver r c.context = .ok x →
      Assembles s.resolver c.trail x.schema x.context)
    (h : ∀ i, Fails (c.run s i) t endless) :
    ∃ n, Starts s (c, t) n ∧ ∀ i, Fails (n.1.run s i) n.2 endless := by
  have hsucc (i : Nat × Nat) : Fails (c.run s (i.1, i.2 + 1)) t endless := h _
  cases hform : form c.schema with
  | pieces ps whole =>
    simp only [fails_run_pieces_iff hform] at hsucc
    obtain ⟨before, p, after, i, types, u, rfl, hbefore, hp⟩ :=
      exists_stopping_item (f := fun i => Piece.convert (fieldWithin s i) c.trail c.hint c.context)
        (fun hle p => piece_approximates hle _ _ _ p) hsucc
    cases p with
    | known type => cases hp i
    | strange warning => cases hp i
    | inner schema rename wrap =>
      exact ⟨_, .nested (.piece hform hbefore), fun j => fails_piece_iff.mp (hp j)⟩
  | record =>
    simp only [fails_run_record_iff hform] at hsucc
    obtain ⟨depth, hdepth⟩ := hparts hform
    have hassembles := not_fails_of_assembles (t := t.reserving s.options c.hint) ht hdepth
    obtain ⟨n, hasks, hn⟩ := exists_asks_of_endless hassembles hsucc
    exact ⟨n, .nested (.property hform hasks), hn⟩
  | reference r =>
    cases turns_of_reference ht hform with
    | halted _ hne hfails => exact absurd ((hfails 0 0).unique (hsucc (0, 0))) hne
    | known hgoes => exact absurd (hsucc (0, 0)) (hgoes 0 0 endless)
    | inPlace hstep hiff => exact ⟨_, .followed hstep, fun i => (hiff i.1 i.2 endless).mp (hsucc i)⟩
    | defined hx hu hrecord _ hstep hiff =>
      obtain ⟨depth, hdepth⟩ := htarget r _ hform hx
      obtain ⟨n, hasks, hn⟩ := exists_asks_of_endless (not_fails_of_assembles hu hdepth)
        fun i => (hiff i.1 i.2 endless).mp (hsucc i)
      exact ⟨n, .followed (hstep n hasks), hn⟩

end RecordDefinitions.Schema
