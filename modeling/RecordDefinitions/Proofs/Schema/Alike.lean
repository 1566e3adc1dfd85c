import RecordDefinitions.Proofs.Import.Whereabouts
import RecordDefinitions.Proofs.Schema.Entries
import RecordDefinitions.Proofs.Schema.Region

/-!
# Conversions of documents in files

A conversion that starts in a file never needs the directory for documents that come from
no file. Two conversions that differ only there do the same, and they ask only for paths
that the references in the files on their way name.
-/

namespace RecordDefinitions

/-- What is remembered is what the files hold, and every path that was asked for has a
property. -/
structure LookupMemory.Keeps (loader : Loader) (P : Path → Prop) (m : LookupMemory) : Prop where
  valid : m.Valid loader
  asked : ∀ p ∈ m.asked, P p

theorem LookupMemory.keeps_empty (loader : Loader) (P : Path → Prop) :
    LookupMemory.empty.Keeps loader P :=
  ⟨valid_empty loader, fun _ hp => by cases hp⟩

/-- The document comes from a file, and whatever its references name from the directory of
the file has a property. -/
def ReferenceContext.Names (context : ReferenceContext) (P : Path → Prop) : Prop :=
  ∃ own, context.In own ∧ ∀ location ∈ context.document.locations, P (own.located location)

/-- What the references in a file name has a property if the path of the file has it. -/
def Loader.Spreads (loader : Loader) (P : Path → Prop) : Prop :=
  ∀ p text d, P p → loader p = some text → Source.readDocument (Format.ofPath p) text = .ok d →
    ReferenceContext.Names ⟨d, some (.ofPath p)⟩ P

namespace Schema

/-- Two computations do the same, wherever they start in a memory of a kind: they end in
such a memory, and a value that they give has a property. -/
def Alike {α : Type} (I : LookupMemory → Prop) (x y : Convert α) (Q : α → Prop) : Prop :=
  ∀ t : Progress, I t.lookup → outcome x t = outcome y t ∧ I (outcome x t).2.lookup ∧
    ∀ a, (outcome x t).1 = .ok a → Q a

namespace Alike

variable {α β : Type} {I : LookupMemory → Prop} {x y : Convert α} {Q : α → Prop}
  {R : β → Prop}

theorem pure {a : α} (h : Q a) : Alike I (Pure.pure a) (Pure.pure a) Q := by
  intro t ht
  refine ⟨rfl, ht, fun b hb => ?_⟩
  cases hb
  exact h

theorem ofExcept (e : Except Failure α) :
    Alike I (Schema.ofExcept e) (Schema.ofExcept e) fun _ => True :=
  fun _ ht => ⟨rfl, ht, fun _ _ => trivial⟩

theorem tooDeep : Alike I (α := α) Schema.tooDeep Schema.tooDeep Q :=
  fun _ ht => ⟨rfl, ht, fun _ hb => by cases hb⟩

theorem warn (warning : String) :
    Alike I (Schema.warn warning) (Schema.warn warning) fun _ => True :=
  fun _ ht => ⟨rfl, ht, fun _ _ => trivial⟩

theorem bind {f g : α → Convert β} (hx : Alike I x y Q)
    (hf : ∀ a, Q a → Alike I (f a) (g a) R) : Alike I (x >>= f) (y >>= g) R := by
  intro t ht
  obtain ⟨heq, hI, hQ⟩ := hx t ht
  rw [outcome_bind, outcome_bind, ← heq]
  generalize outcome x t = o at hI hQ
  obtain ⟨e | a, u⟩ := o
  · exact ⟨rfl, hI, fun b hb => by cases hb⟩
  · exact hf a (hQ a rfl) u hI

theorem mapM {f g : α → Convert β} {as : List α}
    (h : ∀ a ∈ as, Alike I (f a) (g a) fun _ => True) :
    Alike I (as.mapM f) (as.mapM g) fun _ => True := by
  induction as with
  | nil => exact pure trivial
  | cons a as ih =>
    rw [List.mapM_cons, List.mapM_cons]
    refine (h a List.mem_cons_self).bind fun b _ => ?_
    refine (ih fun c hc => h c (List.mem_cons_of_mem a hc)).bind fun _ _ => pure trivial

theorem foldlM {as : List β} {f g : α → β → Convert α} {a : α} (ha : Q a)
    (h : ∀ a, Q a → ∀ b ∈ as, Alike I (f a b) (g a b) Q) :
    Alike I (as.foldlM f a) (as.foldlM g a) Q := by
  induction as generalizing a with
  | nil => exact pure ha
  | cons b as ih =>
    rw [List.foldlM_cons, List.foldlM_cons]
    refine (h a ha b List.mem_cons_self).bind fun c hc => ?_
    exact ih hc fun c hc b hb => h c hc b (List.mem_cons_of_mem _ hb)

end Alike

/-! ## Settings that differ in their directories -/

/-- Two settings differ in nothing but their directories. -/
structure Setting.Agrees (s s' : Setting) : Prop where
  qualified : s.options.qualified = s'.options.qualified
  loader : s.resolver.loader = s'.resolver.loader
  bound : s.bound = s'.bound

/-- A schema stands in a document whose references name paths with a property. -/
structure Stands (P : Path → Prop) (schema : Document) (context : ReferenceContext) : Prop where
  names : context.Names P
  inside : schema ∈ context.document.parts

/-- The properties of a composition stand in such documents. -/
def Composition.Stands (P : Path → Prop) (c : Composition) : Prop :=
  ∀ p ∈ c.properties.toList, Schema.Stands P p.2.schema p.2.context

variable {s s' : Setting} {P : Path → Prop} {schema : Document} {context : ReferenceContext}

theorem Stands.part (h : Stands P schema context) {part : Document} (hpart : part ∈ schema.parts) :
    Stands P part context :=
  ⟨h.names, Document.parts_subset _ schema h.inside part hpart⟩

theorem Composition.Stands.declare {c : Composition} (hc : c.Stands P)
    (h : Schema.Stands P schema context) : (c.declare schema context).Stands P := by
  intro p hp
  rcases Composition.mem_declare hp with hp | ⟨hcontext, hschema⟩
  · exact hc p hp
  · rw [hcontext]
    exact h.part hschema

/-! ## References -/

section Reference

variable {r location : String} (h : Stands P schema context) (hr : schema.string? "$ref" = some r)

include h hr

theorem Stands.located {own : Path} (hown : context.In own)
    (hlocation : ReferenceResolver.location? r = some location) : P (own.located location) := by
  obtain ⟨⟨own', hown', hnames⟩, hinside⟩ := h
  obtain rfl : own' = own := Option.some.inj (hown'.symm.trans hown)
  refine hnames location (List.mem_filterMap.mpr ⟨schema, hinside, ?_⟩)
  rw [hr, Option.bind_some, hlocation]

/-- The target of a reference stands in the same document or in the file that is named. -/
theorem Stands.of_found (hP : s.resolver.loader.Spreads P) {x : ReferenceTarget}
    (hx : s.resolver.found r context = .ok (some x)) : Stands P x.schema x.context := by
  refine ⟨?_, Pointer.mem_parts_of_find? (ReferenceResolver.target_of_found hx).1⟩
  obtain ⟨own, hown, -⟩ := h.names
  rcases ReferenceResolver.context_of_found hown hx with hsame | ⟨location, hl, hd, hfile⟩
  · rw [hsame]
    exact h.names
  · obtain ⟨text, htext, hread⟩ := ReferenceResolver.document?_eq_some_iff.mp hd
    have hnames := hP _ text _ (h.located hr hown hl) htext hread
    rwa [← hfile] at hnames

/-- Only the path that a reference names is asked for. -/
theorem Stands.keeps_resolve {m : LookupMemory} (hm : m.Keeps s.resolver.loader P) :
    (outcome (s.resolver.resolve r context) m).2.Keeps s.resolver.loader P := by
  obtain ⟨own, hown, -⟩ := h.names
  refine ⟨(ReferenceResolver.outcome_resolve hm.valid r context).2, fun p hp => ?_⟩
  rw [ReferenceResolver.asked_resolve s.resolver m hown r] at hp
  cases hl : ReferenceResolver.location? r with
  | none =>
    rw [hl] at hp
    exact hm.asked p hp
  | some location =>
    rw [hl] at hp
    simp only at hp
    split at hp
    · exact hm.asked p hp
    · rcases List.mem_cons.mp hp with rfl | hp
      · exact h.located hr hown hl
      · exact hm.asked p hp

end Reference

section

variable (hs : s.Agrees s') (hP : s.resolver.loader.Spreads P)

include hs hP

/-- A reference is looked up from the directory of the file that it stands in. -/
theorem alike_target (h : Stands P schema context) {r : String}
    (hr : schema.string? "$ref" = some r) :
    Alike (·.Keeps s.resolver.loader P) (target s r context) (target s' r context)
      fun x => Stands P x.schema x.context := by
  have hlookup : Alike (·.Keeps s.resolver.loader P)
      (ofLookup (s.resolver.resolve r context)) (ofLookup (s'.resolver.resolve r context))
      fun found => ∀ x, found = some x → Stands P x.schema x.context := by
    intro t ht
    obtain ⟨own, hown, -⟩ := h.names
    obtain ⟨hfound, -⟩ := ReferenceResolver.outcome_resolve ht.valid r context
    rw [← ReferenceResolver.resolve_congr hs.loader hown, outcome_ofLookup]
    refine ⟨rfl, h.keeps_resolve hr ht, ?_⟩
    rintro found hx x rfl
    exact h.of_found hr hP (hfound.symm.trans hx)
  refine hlookup.bind fun found hfound => ?_
  cases found with
  | none => exact fun t ht => ⟨rfl, ht, fun _ hb => by cases hb⟩
  | some x => exact .pure (hfound x rfl)

/-! ## Conversions -/

theorem alike_compose (depth : Nat) (trail : Trail) (h : Stands P schema context)
    {c : Composition} (hc : c.Stands P) :
    Alike (·.Keeps s.resolver.loader P) (compose s depth trail schema context c)
      (compose s' depth trail schema context c) (·.Stands P) := by
  induction depth generalizing trail schema context c with
  | zero => exact .tooDeep
  | succ depth ih =>
    -- A target and a part stand in documents of the same kind as the schema does.
    unfold compose
    cases hr : schema.string? "$ref" with
    | some r =>
      refine (alike_target hs hP h hr).bind fun x hx => ?_
      exact (Alike.ofExcept _).bind fun next _ => ih next hx hc
    | none =>
      refine Alike.bind (Alike.foldlM hc fun c hc part hpart => ?_) fun c hc => ?_
      · exact ih trail (h.part (mem_allOf hpart).1) hc
      · exact .pure (hc.declare h)

variable {inner inner' : FieldType}
  (hinner : ∀ trail schema hint context, Stands P schema context →
    Alike (·.Keeps s.resolver.loader P) (inner trail schema hint context)
      (inner' trail schema hint context) fun _ => True)

include hinner

theorem alike_convertRecord (trail : Trail) (h : Stands P schema context) :
    Alike (·.Keeps s.resolver.loader P) (convertRecord s inner trail schema context)
      (convertRecord s' inner' trail schema context) fun _ => True := by
  unfold convertRecord
  rw [← hs.bound]
  refine (alike_compose hs hP s.bound trail h fun p hp => by cases hp).bind fun c hc => ?_
  refine (Alike.mapM fun p hp => ?_).bind fun _ _ => .pure trivial
  have hfield : Alike (·.Keeps s.resolver.loader P)
      (convertField inner trail p.1 (c.required.contains p.1) p.2)
      (convertField inner' trail p.1 (c.required.contains p.1) p.2) fun _ => True :=
    (hinner _ _ _ _ (hc p hp)).bind fun _ _ => .pure trivial
  exact hfield.bind fun _ _ => .pure trivial

theorem alike_define (trail : Trail) (name : String) (h : Stands P schema context) :
    Alike (·.Keeps s.resolver.loader P) (define s inner trail name schema context)
      (define s' inner' trail name schema context) fun _ => True :=
  (alike_convertRecord hs hP hinner trail h).bind fun _ _ =>
    fun _ ht => ⟨rfl, ht, fun _ _ => trivial⟩

omit hP hinner in
theorem alike_reserve (base : String) :
    Alike (·.Keeps s.resolver.loader P) (reserve s base) (reserve s' base) fun _ => True := by
  intro t ht
  unfold reserve
  rw [← hs.qualified]
  exact ⟨rfl, ht, fun _ _ => trivial⟩

theorem alike_defineOnce (trail : Trail) {x : ReferenceTarget}
    (h : Stands P x.schema x.context) (base : String) :
    Alike (·.Keeps s.resolver.loader P) (defineOnce s inner trail x base)
      (defineOnce s' inner' trail x base) fun _ => True := by
  have hget : Alike (·.Keeps s.resolver.loader P) get get fun _ => True :=
    fun _ ht => ⟨rfl, ht, fun _ _ => trivial⟩
  refine hget.bind fun t _ => ?_
  cases t.named.lookup (targetKey x) with
  | some name => exact .pure trivial
  | none =>
    refine (alike_reserve hs base).bind fun name _ => ?_
    refine Alike.bind (fun _ ht => ⟨rfl, ht, fun _ _ => trivial⟩) fun _ _ => ?_
    exact (alike_define hs hP hinner trail name h).bind fun _ _ => .pure trivial

theorem alike_inlineDefinition (trail : Trail) (hint : String) (h : Stands P schema context) :
    Alike (·.Keeps s.resolver.loader P) (inlineDefinition s inner trail schema hint context)
      (inlineDefinition s' inner' trail schema hint context) fun _ => True := by
  refine (alike_reserve hs hint).bind fun name _ => ?_
  exact (alike_define hs hP hinner trail name h).bind fun _ _ => .pure trivial

theorem alike_form (trail : Trail) (hint : String) (h : Stands P schema context) :
    Alike (·.Keeps s.resolver.loader P)
      ((form schema).convert s inner trail schema hint context)
      ((form schema).convert s' inner' trail schema hint context) fun _ => True := by
  cases hform : form schema with
  | reference r =>
    refine (alike_target hs hP h (reference_of_form hform)).bind fun x hx => ?_
    split
    · exact (alike_defineOnce hs hP hinner trail hx _).bind fun _ _ => .pure trivial
    · exact (Alike.ofExcept _).bind fun next _ => hinner _ _ _ _ hx
  | record =>
    exact (alike_inlineDefinition hs hP hinner trail hint h).bind fun _ _ => .pure trivial
  | pieces ps whole =>
    refine (Alike.mapM fun p hp => ?_).bind fun _ _ => .pure trivial
    cases p with
    | known type => exact .pure trivial
    | strange warning => exact (Alike.warn _).bind fun _ _ => .pure trivial
    | inner part rename wrap =>
      have hpart := h.part (mem_parts_of_form hform hp)
      exact (hinner _ _ _ _ hpart).bind fun _ _ => .pure trivial

omit hinner

theorem alike_fieldType (depth : Nat) (trail : Trail) (hint : String)
    (h : Stands P schema context) :
    Alike (·.Keeps s.resolver.loader P) (fieldType s depth trail schema hint context)
      (fieldType s' depth trail schema hint context) fun _ => True := by
  induction depth generalizing trail schema hint context with
  | zero => exact .tooDeep
  | succ depth ih =>
    rw [fieldType_succ, fieldType_succ]
    exact (alike_form hs hP (fun trail schema hint context h => ih trail hint h) trail hint
      h).bind fun _ _ => .pure trivial

theorem alike_convertAll (i : Nat × Nat) {es : List Entry}
    (h : ∀ e ∈ es, Stands P e.target.schema e.target.context) :
    Alike (·.Keeps s.resolver.loader P) (convertAll s i es) (convertAll s' i es)
      fun _ => True := by
  have hwithin : (s.within i.1).Agrees (s'.within i.1) := ⟨hs.qualified, hs.loader, rfl⟩
  refine (Alike.mapM fun e he => ?_).bind fun _ _ => .pure trivial
  refine alike_defineOnce hwithin hP (fun trail schema hint context h => ?_) [] (h e he) e.base
  exact alike_fieldType hwithin hP i.2 trail hint h

end

end Schema

end RecordDefinitions
