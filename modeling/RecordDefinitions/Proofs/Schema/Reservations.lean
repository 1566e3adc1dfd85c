import RecordDefinitions.Proofs.Schema.Names

/-!
# Reserved names

A name is reserved for one schema of records, and what the schema is translated to from that
moment on becomes its definition. Names are reserved for the entries of a document and in the
conversions that are reached from them. A conversion that succeeds reserves at most one name
itself; the others are reserved in conversions that it starts.
-/

namespace RecordDefinitions.Schema

open Relation Progress

/-- A name that is reserved for a schema: the references that are being followed, the schema
and the document that it stands in, and the progress with the name reserved. -/
structure Reservation where
  name : String
  trail : Trail
  schema : Document
  context : ReferenceContext
  progress : Progress

namespace Reservation

/-- The name for a schema of records that stands in the place of its use. -/
def inPlace (o : ImportOptions) (c : Call) (t : Progress) : Reservation :=
  ⟨t.freeName o c.hint, c.trail, c.schema, c.context, t.reserving o c.hint⟩

/-- The name for a target. -/
def ofTarget (o : ImportOptions) (trail : Trail) (x : ReferenceTarget) (base : String)
    (t : Progress) : Reservation :=
  ⟨t.freeName o base, trail, x.schema, x.context, t.naming o (targetKey x) base⟩

end Reservation

/-- A conversion reserves a name: for the schema of records that it has come to, or for the
target of its reference when that has none. -/
inductive Reserves (s : Setting) : Call × Progress → Reservation → Prop
  | inPlace {c : Call} {t : Progress} :
    form c.schema = .record → Reserves s (c, t) (.inPlace s.options c t)
  | target {c : Call} {t u : Progress} {r : String} {x : ReferenceTarget} :
    form c.schema = .reference r → outcome (target s r c.context) t = (.ok x, u) →
    isRecord x.schema → u.named.lookup (targetKey x) = none →
      Reserves s (c, t) (.ofTarget s.options c.trail x ((suggestedName? x).getD c.hint) u)

/-- An import reserves a name: for an entry, or in a conversion that it comes to. -/
inductive Reserved (s : Setting) (es : List Entry) : Reservation → Prop
  | entry {e : Entry} {t : Progress} :
    Begins s es e t → Reserved s es (.ofTarget s.options [] e.target e.base t)
  | reached {m : Call × Progress} {v : Reservation} :
    Reached s es m → Reserves s m v → Reserved s es v

/-- The declaration is what the schema is translated to after its name is reserved: each of
the properties that are collected from the schema and its parts has a field, in their order. -/
structure Finished (s : Setting) (v : Reservation) (d : Declaration) : Prop where
  translated : ∃ i u, outcome (recordWithin s i v.trail v.schema v.context) v.progress = (.ok d, u)
  properties : ∃ depth comp,
    composed s.resolver depth v.trail v.schema v.context .empty = .ok comp ∧
      d.fields.names = comp.properties.names

variable {s : Setting} {es : List Entry} {c : Call} {t u w : Progress} {i j : Nat × Nat}
  {v : Reservation} {trail : Trail} {schema : Document} {context : ReferenceContext}

/-! ## What reserving a name changes -/

/-- A name that was free is in use, and stands for a definition without fields. -/
structure Reservation.Extends (v : Reservation) (s : Setting) (t : Progress) : Prop where
  steps : t.Steps s.options s.resolver.loader v.progress
  fresh : v.name ∉ t.usedNames
  usedNames : v.progress.usedNames = v.name :: t.usedNames
  definitions : v.progress.definitions = t.definitions.insert (v.name, .empty)

theorem extends_inPlace (c : Call) (t : Progress) :
    (Reservation.inPlace s.options c t).Extends s t :=
  ⟨.single (.reserved _), t.freeName_not_mem _ _, rfl, rfl⟩

theorem extends_ofTarget (trail : Trail) {x : ReferenceTarget} (base : String)
    (hnew : t.named.lookup (targetKey x) = none) :
    (Reservation.ofTarget s.options trail x base t).Extends s t :=
  ⟨.single (.named _ hnew), t.freeName_not_mem _ _, rfl, rfl⟩

theorem exists_lookup_of_target {r : String} {x : ReferenceTarget}
    (ht : t.lookup.Valid s.resolver.loader) (h : outcome (target s r context) t = (.ok x, u)) :
    ∃ m : LookupMemory, m.Valid s.resolver.loader ∧ u = { t with lookup := m } := by
  obtain ⟨m, hm, houtcome⟩ := searches_target (s := s) r context t ht
  exact ⟨m, hm, congrArg Prod.snd (h.symm.trans houtcome)⟩

theorem Reserves.extends {m : Call × Progress} (ht : m.2.lookup.Valid s.resolver.loader)
    (h : Reserves s m v) : v.Extends s m.2 := by
  cases h with
  | inPlace _ => exact extends_inPlace _ _
  | @target c _ _ _ x _ htarget _ hnew =>
    obtain ⟨m, hm, rfl⟩ := exists_lookup_of_target ht htarget
    have hextends := extends_ofTarget (s := s) c.trail ((suggestedName? x).getD c.hint) hnew
    exact ⟨hextends.steps.head (.read hm), hextends.fresh, hextends.usedNames,
      hextends.definitions⟩

/-! ## How a conversion succeeds -/

/-- The ways in which a conversion succeeds, with bounds on those that it starts: with its
pieces, with a schema of records for which it reserves a name, with a target that has a name,
or with the conversion of a target in its place. -/
inductive Succeeds (s : Setting) (i : Nat × Nat) (c : Call) (t : Progress) :
    TypeExpr → Progress → Prop
  | pieces {ps : List Piece} {whole : List (TypeExpr × Bool) → TypeExpr × Bool}
    {types : List (TypeExpr × Bool)} {u : Progress} :
    form c.schema = .pieces ps whole →
    outcome (ps.mapM (Piece.convert (fieldWithin s i) c.trail c.hint c.context)) t =
      (.ok types, u) →
      Succeeds s i c t (whole types).1 u
  | reserved {v : Reservation} {d : Declaration} {w : Progress} :
    Reserves s (c, t) v →
    outcome (recordWithin s i v.trail v.schema v.context) v.progress = (.ok d, w) →
      Succeeds s i c t (.definition v.name)
        { w with definitions := w.definitions.insert (v.name, d) }
  | known {r name : String} {x : ReferenceTarget} {u : Progress} :
    form c.schema = .reference r → outcome (target s r c.context) t = (.ok x, u) →
    isRecord x.schema → u.named.lookup (targetKey x) = some name →
      Succeeds s i c t (.definition name) u
  | inPlace {r : String} {x : ReferenceTarget} {next : Trail} {a : TypeExpr × Bool}
    {w u : Progress} :
    form c.schema = .reference r → outcome (target s r c.context) t = (.ok x, w) →
    ¬ isRecord x.schema → c.trail.enter (targetKey x) r = .ok next →
    outcome (Call.run s i ⟨next, x.schema, c.hint, x.context⟩) w = (.ok a, u) →
      Succeeds s i c t a.1 u

theorem exists_outcome_of_reference (schema : Document) {inner : FieldType} {r hint : String}
    {b : Nat} {a : TypeExpr × Bool} (ht : t.lookup.Valid s.resolver.loader)
    (h : outcome (typeOfReference (s.within b) inner r trail schema hint context) t = (.ok a, u)) :
    ∃ x w, outcome (target s r context) t = (.ok x, w) := by
  obtain ⟨w, -, -, htarget⟩ := exists_outcome_target ht r context
  cases hx : targetOf s.resolver r context with
  | error e =>
    rw [hx] at htarget
    obtain ⟨x, w', hok, -⟩ := outcome_bind_eq_ok_iff.mp h
    exact absurd (congrArg Prod.fst htarget) (not_fails_of_ok hok)
  | ok x =>
    rw [hx] at htarget
    exact ⟨x, w, htarget⟩

theorem succeeds_of_run {b d : Nat} {a : TypeExpr × Bool} (ht : t.lookup.Valid s.resolver.loader)
    (h : outcome (c.run s (b, d + 1)) t = (.ok a, u)) : Succeeds s (b, d) c t a.1 u := by
  obtain ⟨type, htype, rfl⟩ := outcome_run_ok_iff.mp h
  cases hform : form c.schema with
  | pieces ps whole =>
    rw [hform] at htype
    obtain ⟨types, w, hpieces, hlast⟩ := outcome_bind_eq_ok_iff.mp htype
    cases hlast
    exact .pieces hform hpieces
  | record =>
    rw [hform] at htype
    obtain ⟨name, w, hinline, hlast⟩ := outcome_bind_eq_ok_iff.mp htype
    cases hlast
    unfold inlineDefinition at hinline
    have hreserve := outcome_reserve (s := s.within b) c.hint t
    rw [outcome_bind_of_ok hreserve] at hinline
    obtain ⟨decl, w, hrecord, rfl, rfl⟩ := outcome_define_ok_iff (i := (b, d)).mp hinline
    exact .reserved (.inPlace hform) hrecord
  | reference r =>
    rw [hform] at htype
    obtain ⟨x, w, htarget⟩ := exists_outcome_of_reference c.schema ht htype
    rw [Form.convert, outcome_typeOfReference htarget] at htype
    by_cases hrecord : isRecord x.schema
    · rw [if_pos hrecord] at htype
      obtain ⟨name, w', hdefine, hlast⟩ := outcome_bind_eq_ok_iff.mp htype
      cases hlast
      rw [targetDefinition_eq, outcome_defineOnce] at hdefine
      cases hknown : w.named.lookup (targetKey x) with
      | some known =>
        rw [hknown] at hdefine
        cases hdefine
        exact .known hform htarget hrecord hknown
      | none =>
        rw [hknown] at hdefine
        obtain ⟨decl, w', hrecord', rfl, rfl⟩ := outcome_define_ok_iff (i := (b, d)).mp hdefine
        exact .reserved (.target hform htarget hrecord hknown) hrecord'
    · rw [if_neg hrecord] at htype
      obtain ⟨next, w', hnext, hinner⟩ := outcome_bind_eq_ok_iff.mp htype
      cases henter : c.trail.enter (targetKey x) r with
      | error e =>
        rw [henter] at hnext
        cases hnext
      | ok trail =>
        rw [henter] at hnext
        cases hnext
        change Succeeds s (b, d) c t type.1 u
        exact .inPlace hform htarget hrecord henter hinner

end RecordDefinitions.Schema
