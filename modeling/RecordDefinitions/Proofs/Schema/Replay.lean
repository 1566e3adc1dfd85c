import RecordDefinitions.Proofs.Schema.Calls

/-!
# Conversions that are repeated

A conversion that has succeeded succeeds again whenever it is met later, under the same
bounds: the targets that it came across have names by then, and nothing else that
decides about it can change.
-/

namespace RecordDefinitions.Schema

open Relation Progress

variable {s : Setting} {t u t' : Progress} {i : Nat × Nat}

/-! ## What starting a conversion changes -/

theorem moves_fieldWithin (i : Nat × Nat) (trail : Trail) (schema : Document) (hint : String)
    (context : ReferenceContext) :
    Moves s.options s.resolver.loader (fieldWithin s i trail schema hint context) :=
  moves_fieldType (s := s.within i.1) i.2 trail schema hint context

theorem moves_namedField (i : Nat × Nat) (trail : Trail) (c : Composition)
    (p : String × Property) :
    Moves s.options s.resolver.loader (namedField (fieldWithin s i) trail c p) :=
  ((moves_fieldWithin i _ _ _ _).bind fun _ => .pure _).bind fun _ => .pure _

theorem moves_piece (i : Nat × Nat) (trail : Trail) (hint : String) (context : ReferenceContext)
    (p : Piece) :
    Moves s.options s.resolver.loader (p.convert (fieldWithin s i) trail hint context) :=
  p.moves (moves_fieldWithin i) trail hint context

theorem Moves.steps {α : Type} {o : ImportOptions} {loader : Loader} {x : Convert α} {a : α}
    (h : Moves o loader x) (ht : t.lookup.Valid loader) (hx : outcome x t = (.ok a, u)) :
    t.Steps o loader u := by
  have hsteps := h t ht
  rwa [hx] at hsteps

/-- The conversions of a list, each in a progress with a valid memory. -/
theorem Moves.forall₂_of_mapM {α β : Type} {o : ImportOptions} {loader : Loader}
    {f : α → Convert β} (hmoves : ∀ a, Moves o loader (f a)) {as : List α} {bs : List β}
    (ht : t.lookup.Valid loader) (h : outcome (as.mapM f) t = (.ok bs, u)) :
    List.Forall₂ (fun a b => ∃ v w : Progress, v.lookup.Valid loader ∧
      outcome (f a) v = (.ok b, w)) as bs := by
  induction as generalizing t bs with
  | nil =>
    cases h
    exact .nil
  | cons a as ih =>
    rw [List.mapM_cons] at h
    obtain ⟨b, v, ha, hrest⟩ := outcome_bind_eq_ok_iff.mp h
    obtain ⟨rest, w, hrest, hlast⟩ := outcome_bind_eq_ok_iff.mp hrest
    cases hlast
    have hv : v.lookup.Valid loader := ((hmoves a).steps ht ha).valid ht
    exact .cons ⟨t, v, ht, ha⟩ (ih hv hrest)

theorem Asks.steps {trail : Trail} {schema : Document} {context : ReferenceContext}
    {n : Call × Progress} (h : Asks s trail schema context t n)
    (ht : t.lookup.Valid s.resolver.loader) : t.Steps s.options s.resolver.loader n.2 := by
  cases h with
  | property hcompose _ hbefore =>
    have hparts := (moves_compose _ trail schema context .empty).steps ht hcompose
    exact hparts.trans ((Moves.mapM fun p _ => moves_namedField _ trail _ p).steps
      (hparts.valid ht) hbefore)

theorem Starts.steps {m n : Call × Progress} (h : Starts s m n)
    (hm : m.2.lookup.Valid s.resolver.loader) : m.2.Steps s.options s.resolver.loader n.2 := by
  rcases h with h | h
  · cases h with
    | piece _ hbefore => exact (Moves.mapM fun p _ => moves_piece _ _ _ _ p).steps hm hbefore
    | property _ hasks =>
      exact .head (.reserved _) (hasks.steps (t := Progress.reserving _ _ _) hm)
  · cases h with
    | inPlace _ htarget => exact (moves_target _ _).steps hm htarget
    | property _ htarget _ hnew hasks =>
      have hread := (moves_target _ _).steps hm htarget
      have hasked := hasks.steps (t := Progress.naming _ _ _ _) (hread.valid hm)
      exact hread.trans (.head (.named _ hnew) hasked)

/-! ## Success that is repeated -/

/-- Where the first computation has succeeded, the second one succeeds later. -/
def Repeats {α β : Type} (loader : Loader) (x : Convert α) (y : Convert β) : Prop :=
  ∀ t u a, t.lookup.Valid loader → outcome x t = (.ok a, u) →
    ∀ t', t'.lookup.Valid loader → u.Keeps t' → ∃ b u', outcome y t' = (.ok b, u')

theorem Repeats.mapM {α β γ : Type} {o : ImportOptions} {loader : Loader} {f : α → Convert β}
    {g : α → Convert γ} {as : List α} (hf : ∀ a ∈ as, Moves o loader (f a))
    (hg : ∀ a ∈ as, Moves o loader (g a)) (h : ∀ a ∈ as, Repeats loader (f a) (g a)) :
    Repeats loader (as.mapM f) (as.mapM g) := by
  induction as with
  | nil => exact fun _ _ _ _ _ t' _ _ => ⟨[], t', rfl⟩
  | cons a as ih =>
    intro t u bs ht hfirst t' ht' hkeeps
    rw [List.mapM_cons] at hfirst ⊢
    obtain ⟨b, v, hb, hrest⟩ := outcome_bind_eq_ok_iff.mp hfirst
    obtain ⟨cs, w, hcs, hw⟩ := outcome_bind_eq_ok_iff.mp hrest
    cases hw
    have hv := (hf a List.mem_cons_self).steps ht hb
    have hvu := (Moves.mapM fun c hc => hf c (List.mem_cons_of_mem a hc)).steps (hv.valid ht) hcs
    obtain ⟨b', v', hb'⟩ := h a List.mem_cons_self t v b ht hb t' ht' (hvu.keeps.trans hkeeps)
    have hv' := (hg a List.mem_cons_self).steps ht' hb'
    obtain ⟨cs', w', hcs'⟩ := ih (fun c hc => hf c (List.mem_cons_of_mem a hc))
      (fun c hc => hg c (List.mem_cons_of_mem a hc))
      (fun c hc => h c (List.mem_cons_of_mem a hc)) v u cs (hv.valid ht) hcs v' (hv'.valid ht')
      (hkeeps.trans hv'.keeps)
    exact ⟨_, _, by rw [outcome_bind_of_ok hb', outcome_bind_of_ok hcs']; rfl⟩

/-- Conversions of the same schema in the same place, maybe under different names. -/
structure Call.Same (c c' : Call) : Prop where
  trail : c.trail = c'.trail
  schema : c.schema = c'.schema
  context : c.context = c'.context

theorem outcome_compose_again {depth : Nat} {trail : Trail} {schema : Document}
    {context : ReferenceContext} {c comp : Composition} (ht : t.lookup.Valid s.resolver.loader)
    (h : outcome (compose s depth trail schema context c) t = (.ok comp, u))
    (ht' : t'.lookup.Valid s.resolver.loader) :
    ∃ u' : Progress, u'.named = t'.named ∧ u'.lookup.Valid s.resolver.loader ∧
      outcome (compose s depth trail schema context c) t' = (.ok comp, u') := by
  obtain ⟨m, -, hfirst⟩ := searches_compose (s := s) depth trail schema context c t ht
  obtain ⟨m', hm', hagain⟩ := searches_compose (s := s) depth trail schema context c t' ht'
  have hcomp : composed s.resolver depth trail schema context c = .ok comp :=
    congrArg Prod.fst (hfirst.symm.trans h)
  exact ⟨{ t' with lookup := m' }, rfl, hm', by rw [hagain, hcomp]⟩

theorem repeats_namedField {trail : Trail} {comp : Composition} {p : String × Property}
    (h : ∀ c c' : Call, c.Same c' → Repeats s.resolver.loader (c.run s i) (c'.run s i)) :
    Repeats s.resolver.loader (namedField (fieldWithin s i) trail comp p)
      (namedField (fieldWithin s i) trail comp p) := by
  intro t u a ht hfirst t' ht' hkeeps
  obtain ⟨f, v, hf, hlast⟩ := outcome_bind_eq_ok_iff.mp hfirst
  cases hlast
  obtain ⟨type, w, hrun, hlast⟩ := outcome_bind_eq_ok_iff.mp hf
  cases hlast
  obtain ⟨type', u', hrun'⟩ := h ⟨trail, p.2.schema, Naming.pascal p.1, p.2.context⟩ _
    ⟨rfl, rfl, rfl⟩ t u type ht hrun t' ht' hkeeps
  exact ⟨_, u', outcome_bind_eq_ok_iff.mpr
    ⟨_, u', outcome_bind_eq_ok_iff.mpr ⟨type', u', hrun', rfl⟩, rfl⟩⟩

theorem repeats_record {trail : Trail} {schema : Document} {context : ReferenceContext}
    (h : ∀ c c' : Call, c.Same c' → Repeats s.resolver.loader (c.run s i) (c'.run s i)) :
    Repeats s.resolver.loader (recordWithin s i trail schema context)
      (recordWithin s i trail schema context) := by
  intro t u a ht hfirst t' ht' hkeeps
  rw [recordWithin_eq] at hfirst ⊢
  obtain ⟨comp, v, hcomp, hrest⟩ := outcome_bind_eq_ok_iff.mp hfirst
  obtain ⟨fields, w, hfields, hlast⟩ := outcome_bind_eq_ok_iff.mp hrest
  cases hlast
  have hv := (moves_compose _ _ _ _ _).steps ht hcomp
  obtain ⟨v', hnamed, hv', hcomp'⟩ := outcome_compose_again ht hcomp ht'
  have hkeeps' : u.Keeps v' := hkeeps.of_named_eq hnamed
  obtain ⟨fields', w', hfields'⟩ := Repeats.mapM (fun p _ => moves_namedField i trail comp p)
    (fun p _ => moves_namedField i trail comp p) (fun p _ => repeats_namedField h) v u fields
    (hv.valid ht) hfields v' hv' hkeeps'
  exact ⟨_, w', by rw [outcome_bind_of_ok hcomp', outcome_bind_of_ok hfields']; rfl⟩

theorem outcome_define_ok_iff {i : Nat × Nat} {trail : Trail} {name : String} {schema : Document}
    {context : ReferenceContext} {a : String} :
    outcome (define (s.within i.1) (fieldWithin s i) trail name schema context >>= fun _ =>
        Pure.pure name) t = (.ok a, u) ↔
      ∃ d v, outcome (recordWithin s i trail schema context) t = (.ok d, v) ∧ a = name ∧
        u = { v with definitions := v.definitions.insert (name, d) } := by
  rw [outcome_bind_eq_ok_iff]
  unfold define
  constructor
  · rintro ⟨x, w, h, hlast⟩
    obtain ⟨d, v, hd, hmodify⟩ := outcome_bind_eq_ok_iff.mp h
    cases hmodify
    cases hlast
    exact ⟨d, v, hd, rfl, rfl⟩
  · rintro ⟨d, v, hd, rfl, rfl⟩
    exact ⟨⟨⟩, _, outcome_bind_eq_ok_iff.mpr ⟨d, v, hd, rfl⟩, rfl⟩

theorem repeats_define {trail : Trail} {name name' : String} {schema : Document}
    {context : ReferenceContext}
    (h : ∀ c c' : Call, c.Same c' → Repeats s.resolver.loader (c.run s i) (c'.run s i)) :
    Repeats s.resolver.loader
      (define (s.within i.1) (fieldWithin s i) trail name schema context >>= fun _ =>
        Pure.pure name)
      (define (s.within i.1) (fieldWithin s i) trail name' schema context >>= fun _ =>
        Pure.pure name') := by
  intro t u a ht hfirst t' ht' hkeeps
  obtain ⟨d, v, hd, rfl, rfl⟩ := outcome_define_ok_iff.mp hfirst
  obtain ⟨d', v', hd'⟩ := repeats_record h t v d ht hd t' ht' hkeeps
  exact ⟨name', _, outcome_define_ok_iff.mpr ⟨d', v', hd', rfl, rfl⟩⟩

theorem repeats_piece {c c' : Call} (hsame : c.Same c')
    (h : ∀ c c' : Call, c.Same c' → Repeats s.resolver.loader (c.run s i) (c'.run s i))
    (p : Piece) :
    Repeats s.resolver.loader (p.convert (fieldWithin s i) c.trail c.hint c.context)
      (p.convert (fieldWithin s i) c'.trail c'.hint c'.context) := by
  cases p with
  | known type => exact fun _ _ _ _ _ t' _ _ => ⟨type, t', rfl⟩
  | strange warning => exact fun _ _ _ _ _ t' _ _ => ⟨_, _, rfl⟩
  | inner schema rename wrap =>
    intro t u a ht hfirst t' ht' hkeeps
    obtain ⟨type, v, htype, hlast⟩ := outcome_bind_eq_ok_iff.mp hfirst
    cases hlast
    obtain ⟨type', u', htype'⟩ := h ⟨c.trail, schema, rename c.hint, c.context⟩
      ⟨c'.trail, schema, rename c'.hint, c'.context⟩
      ⟨hsame.trail, rfl, hsame.context⟩ t u type ht htype t' ht' hkeeps
    exact ⟨_, u', outcome_bind_eq_ok_iff.mpr ⟨type', u', htype', rfl⟩⟩

/-- A reference that has been followed is followed again later, unless its target has a
name by then. -/
theorem repeats_reference {b d : Nat} {c c' : Call} (hsame : c.Same c') {r : String}
    (h : ∀ c c' : Call, c.Same c' → Repeats s.resolver.loader (c.run s (b, d)) (c'.run s (b, d))) :
    Repeats s.resolver.loader
      (typeOfReference (s.within b) (fieldWithin s (b, d)) r c.trail c.schema c.hint c.context)
      (typeOfReference (s.within b) (fieldWithin s (b, d)) r c'.trail c'.schema c'.hint
        c'.context) := by
  intro t u a ht hfirst t' ht' hkeeps
  obtain ⟨v, hv, -, htarget⟩ := exists_outcome_target ht r c.context
  obtain ⟨v', hv', hnamed, htarget'⟩ := exists_outcome_target ht' r c'.context
  rw [← hsame.context] at htarget'
  have hkeeps' : u.Keeps v' := hkeeps.of_named_eq hnamed
  cases hx : targetOf s.resolver r c.context with
  | error e =>
    rw [hx] at htarget
    have hstop : Fails (typeOfReference (s.within b) (fieldWithin s (b, d)) r c.trail c.schema
        c.hint c.context) t e := fails_bind_iff.mpr (Or.inl (congrArg Prod.fst htarget))
    exact absurd hstop (not_fails_of_ok hfirst)
  | ok x =>
    rw [hx] at htarget htarget'
    rw [outcome_typeOfReference htarget] at hfirst
    rw [← hsame.context, outcome_typeOfReference htarget', ← hsame.trail]
    by_cases hrecord : isRecord x.schema
    · rw [if_pos hrecord] at hfirst ⊢
      obtain ⟨name, w, hname, hlast⟩ := outcome_bind_eq_ok_iff.mp hfirst
      cases hlast
      have hknown : v'.named.lookup (targetKey x) = some name := by
        refine hkeeps' _ _ ?_
        exact lookup_of_defineOnce (s := s.within b) (moves_fieldWithin (s := s) (b, d)) hv hname
      refine ⟨_, v', outcome_bind_eq_ok_iff.mpr ⟨name, v', ?_, rfl⟩⟩
      rw [targetDefinition_eq, outcome_defineOnce, hknown]
    · rw [if_neg hrecord] at hfirst ⊢
      cases hnext : c.trail.enter (targetKey x) r with
      | error e =>
        rw [hnext] at hfirst
        cases hfirst
      | ok next =>
        rw [hnext] at hfirst
        exact h ⟨next, x.schema, c.hint, x.context⟩ ⟨next, x.schema, c'.hint, x.context⟩
          ⟨rfl, rfl, rfl⟩ v u a hv hfirst v' hv' hkeeps'

theorem outcome_run_ok_iff {c : Call} {b d : Nat} {a : TypeExpr × Bool} :
    outcome (c.run s (b, d + 1)) t = (.ok a, u) ↔
      ∃ w, outcome ((form c.schema).convert (s.within b) (fieldWithin s (b, d)) c.trail c.schema
        c.hint c.context) t = (.ok w, u) ∧ a = (w.1, w.2 || allowsNull c.schema) := by
  unfold Call.run fieldWithin
  rw [fieldType_succ, outcome_bind_eq_ok_iff]
  constructor
  · rintro ⟨w, v, hw, hlast⟩
    cases hlast
    exact ⟨w, hw, rfl⟩
  · rintro ⟨w, hw, rfl⟩
    exact ⟨w, u, hw, rfl⟩

/-- A conversion that has succeeded succeeds again later. -/
theorem repeats_run (b d : Nat) (c c' : Call) (hsame : c.Same c') :
    Repeats s.resolver.loader (c.run s (b, d)) (c'.run s (b, d)) := by
  induction d generalizing c c' with
  | zero =>
    intro t u a ht hfirst
    exact absurd fails_run_zero (not_fails_of_ok hfirst)
  | succ d ih =>
    intro t u a ht hfirst t' ht' hkeeps
    obtain ⟨w, hw, rfl⟩ := outcome_run_ok_iff.mp hfirst
    suffices hagain : ∃ w' u', outcome ((form c.schema).convert (s.within b) (fieldWithin s (b, d))
        c'.trail c'.schema c'.hint c'.context) t' = (.ok w', u') by
      obtain ⟨w', u', hw'⟩ := hagain
      rw [hsame.schema] at hw'
      exact ⟨_, u', outcome_run_ok_iff.mpr ⟨w', hw', rfl⟩⟩
    cases hform : form c.schema with
    | pieces ps whole =>
      rw [hform] at hw
      obtain ⟨types, v, htypes, hlast⟩ := outcome_bind_eq_ok_iff.mp hw
      cases hlast
      obtain ⟨types', u', htypes'⟩ := Repeats.mapM (fun p _ => moves_piece _ _ _ _ p)
        (fun p _ => moves_piece _ _ _ _ p) (fun p _ => repeats_piece hsame ih p) t u types ht htypes
        t' ht' hkeeps
      exact ⟨_, u', outcome_bind_eq_ok_iff.mpr ⟨types', u', htypes', rfl⟩⟩
    | record =>
      rw [hform] at hw
      obtain ⟨name, v, hname, hlast⟩ := outcome_bind_eq_ok_iff.mp hw
      cases hlast
      obtain ⟨name', u', hname'⟩ := repeats_define ih (t.reserving s.options c.hint) u name ht
        hname (t'.reserving s.options c'.hint) ht' hkeeps
      rw [hsame.trail, hsame.schema, hsame.context] at hname'
      exact ⟨_, u', outcome_bind_eq_ok_iff.mpr ⟨name', u', hname', rfl⟩⟩
    | reference r =>
      rw [hform] at hw
      obtain ⟨w', u', hw'⟩ := repeats_reference hsame ih t u w ht hw t' ht' hkeeps
      rw [← hsame.schema] at hw'
      exact ⟨w', u', hw'⟩

/-! ## Starting a conversion again -/

/-- A property that a record has asked for is asked for again later. -/
theorem Asks.again {trail : Trail} {schema : Document} {context : ReferenceContext}
    {n : Call × Progress} (h : Asks s trail schema context t n)
    (ht : t.lookup.Valid s.resolver.loader) (ht' : t'.lookup.Valid s.resolver.loader)
    (hkeeps : n.2.Keeps t') : ∃ u', Asks s trail schema context t' (n.1, u') := by
  cases h with
  | property hcompose hprops hbefore =>
    have hparts := (moves_compose _ _ _ _ _).steps ht hcompose
    obtain ⟨v, hnamed, hv, hcompose'⟩ := outcome_compose_again ht hcompose ht'
    obtain ⟨fields, u', hbefore'⟩ := Repeats.mapM (fun p _ => moves_namedField _ trail _ p)
      (fun p _ => moves_namedField _ trail _ p)
      (fun p _ => repeats_namedField fun c c' => repeats_run _ _ c c') _ _ _ (hparts.valid ht)
      hbefore v hv (hkeeps.of_named_eq hnamed)
    exact ⟨u', .property hcompose' hprops hbefore'⟩

/-- What a conversion has started in its place is started again later. -/
theorem Nests.again {c c' n : Call} (h : Nests s (c, t) (n, u)) (hsame : c.Same c')
    (ht : t.lookup.Valid s.resolver.loader) (ht' : t'.lookup.Valid s.resolver.loader)
    (hkeeps : u.Keeps t') : ∃ n' u', Nests s (c', t') (n', u') ∧ n.Same n' := by
  cases h with
  | piece hform hbefore =>
    rename_i before after whole schema rename wrap i types
    have hpiece (p : Piece) : Repeats s.resolver.loader
        (p.convert (fieldWithin s i) c.trail c.hint c.context)
        (p.convert (fieldWithin s i) c'.trail c'.hint c'.context) :=
      repeats_piece hsame (fun c c' => repeats_run _ _ c c') p
    obtain ⟨types', u', hbefore'⟩ := Repeats.mapM (fun p _ => moves_piece _ _ _ _ p)
      (fun p _ => moves_piece _ _ _ _ p) (fun p _ => hpiece p) t u types ht hbefore t' ht' hkeeps
    rw [hsame.schema] at hform
    exact ⟨_, u', .piece hform hbefore', hsame.trail, rfl, hsame.context⟩
  | property hform hasks =>
    obtain ⟨u', hasks'⟩ : ∃ u', Asks s c.trail c.schema c.context
        (t'.reserving s.options c'.hint) (n, u') := hasks.again ht ht' hkeeps
    rw [hsame.trail, hsame.schema, hsame.context] at hasks'
    rw [hsame.schema] at hform
    exact ⟨n, u', .property hform hasks', rfl, rfl, rfl⟩

/-! ## Schemas that are nested in themselves -/

theorem Call.Same.trans {c c' c'' : Call} (h : c.Same c') (h' : c'.Same c'') : c.Same c'' :=
  ⟨h.trail.trans h'.trail, h.schema.trans h'.schema, h.context.trans h'.context⟩

theorem Nests.keeps {m n : Call × Progress} (h : Nests s m n)
    (hm : m.2.lookup.Valid s.resolver.loader) :
    m.2.Keeps n.2 ∧ n.2.lookup.Valid s.resolver.loader :=
  ⟨((Starts.nested h).steps hm).keeps, ((Starts.nested h).steps hm).valid hm⟩

theorem keeps_of_nests {m n : Call × Progress} (h : TransGen (Nests s) m n)
    (hm : m.2.lookup.Valid s.resolver.loader) :
    m.2.Keeps n.2 ∧ n.2.lookup.Valid s.resolver.loader := by
  induction h with
  | single h => exact h.keeps hm
  | tail _ h ih => exact ⟨ih.1.trans (h.keeps ih.2).1, (h.keeps ih.2).2⟩

/-- A way from one schema to one inside it is gone again later. -/
theorem nests_again {m n : Call × Progress} (h : TransGen (Nests s) m n)
    (hm : m.2.lookup.Valid s.resolver.loader) {c' : Call} (hsame : m.1.Same c')
    (ht' : t'.lookup.Valid s.resolver.loader) (hkeeps : n.2.Keeps t') :
    ∃ n' u', TransGen (Nests s) (c', t') (n', u') ∧ n.1.Same n' := by
  induction h with
  | single h =>
    obtain ⟨n', u', hnests, hn⟩ := Nests.again h hsame hm ht' hkeeps
    exact ⟨n', u', .single hnests, hn⟩
  | @tail k n hk h ih =>
    obtain ⟨hmk, hvalid⟩ := keeps_of_nests hk hm
    obtain ⟨k', v', hk', hsame'⟩ := ih ((h.keeps hvalid).1.trans hkeeps)
    obtain ⟨hkeeps', hvalid'⟩ := keeps_of_nests hk' ht'
    obtain ⟨n', u', hnests, hn⟩ := Nests.again h hsame' hvalid hvalid' (hkeeps.trans hkeeps')
    exact ⟨n', u', hk'.tail hnests, hn⟩

/-- Bounds that do not suffice for a schema inside another one do not suffice for that. -/
theorem stops_of_nests {m n : Call × Progress} (h : TransGen (Nests s) m n) {b d : Nat}
    (hn : Fails (n.1.run s (b, d)) n.2 endless) : Fails (m.1.run s (b, d + 1)) m.2 endless := by
  induction h using TransGen.head_induction_on with
  | @single m h =>
    obtain ⟨c, t⟩ := m
    exact Starts.stops (i := (b, d)) (.nested h) hn
  | @head m k h _ ih =>
    obtain ⟨c, t⟩ := m
    have hle : (b, d) ≤ (b, d + 1) := ⟨le_rfl, Nat.le_succ d⟩
    exact Starts.stops (i := (b, d)) (.nested h) ((run_approximates hle k.1).stops ih)

/-- A schema that is nested in itself stops every conversion, whatever its bounds. -/
theorem endless_of_loop {c c' : Call} (h : TransGen (Nests s) (c, t) (c', t'))
    (ht : t.lookup.Valid s.resolver.loader) (hsame : c.Same c') (i : Nat × Nat) :
    Fails (c.run s i) t endless := by
  obtain ⟨b, d⟩ := i
  obtain ⟨-, ht'⟩ := keeps_of_nests h ht
  have hlater (d : Nat) : ∀ c₀ t₀, c.Same c₀ → t₀.lookup.Valid s.resolver.loader →
      t'.Keeps t₀ → Fails (c₀.run s (b, d)) t₀ endless := by
    induction d with
    | zero => exact fun _ _ _ _ _ => fails_run_zero
    | succ d ih =>
      intro c₀ t₀ hc₀ ht₀ hkeeps
      obtain ⟨n', u', hagain, hn⟩ := nests_again h ht hc₀ ht₀ hkeeps
      obtain ⟨hkeeps', hvalid⟩ := keeps_of_nests hagain ht₀
      exact stops_of_nests hagain (ih n' u' (hsame.trans hn) hvalid (hkeeps.trans hkeeps'))
  cases d with
  | zero => exact fails_run_zero
  | succ d => exact stops_of_nests h (hlater d c' t' hsame ht' (.refl t'))

end RecordDefinitions.Schema
