import Mathlib.Logic.Relation
import RecordDefinitions.Proofs.Schema.Composition

/-!
# How a conversion makes progress

There are five ways in which a conversion changes what it knows: a document is read,
something is warned about, a name is reserved for a definition in place or for a
target that has none, and a reserved definition gets its fields. What all five keep
holds at every moment of every conversion.
-/

namespace RecordDefinitions.Schema

open Relation

/-- The name that a definition would get. -/
def Progress.freeName (t : Progress) (o : ImportOptions) (base : String) : String :=
  Naming.uniqueName t.usedNames (o.qualified (Naming.typeName base "Schema"))

/-- The progress after reserving a name. -/
def Progress.reserving (t : Progress) (o : ImportOptions) (base : String) : Progress :=
  { t with
    usedNames := t.freeName o base :: t.usedNames
    definitions := t.definitions.insert (t.freeName o base, .empty) }

/-- The progress after reserving a name for a target. -/
def Progress.naming (t : Progress) (o : ImportOptions) (key : TargetKey) (base : String) :
    Progress :=
  { t.reserving o base with named := (key, t.freeName o base) :: t.named }

namespace Progress

/-- One change of what is known. -/
inductive Step (o : ImportOptions) (loader : Loader) : Progress → Progress → Prop
  | read {t : Progress} {m : LookupMemory} :
    m.Valid loader → Step o loader t { t with lookup := m }
  | warned {t : Progress} (warning : String) :
    Step o loader t { t with warnings := t.warnings ++ [warning] }
  | reserved {t : Progress} (base : String) : Step o loader t (t.reserving o base)
  | named {t : Progress} {key : TargetKey} (base : String) :
    t.named.lookup key = none → Step o loader t (t.naming o key base)
  | defined {t : Progress} {name : String} (d : Declaration) :
    name ∈ t.usedNames →
      Step o loader t { t with definitions := t.definitions.insert (name, d) }

/-- Any number of changes. -/
abbrev Steps (o : ImportOptions) (loader : Loader) : Progress → Progress → Prop :=
  ReflTransGen (Step o loader)

variable {o : ImportOptions} {loader : Loader} {t t' : Progress}

/-! ## What is kept -/

theorem Step.valid (h : Step o loader t t') (ht : t.lookup.Valid loader) :
    t'.lookup.Valid loader := by
  cases h with
  | read hm => exact hm
  | warned | reserved | named | defined => exact ht

theorem Steps.valid (h : Steps o loader t t') (ht : t.lookup.Valid loader) :
    t'.lookup.Valid loader := by
  induction h with
  | refl => exact ht
  | tail _ hstep ih => exact hstep.valid ih

theorem Step.used (h : Step o loader t t') {name : String} (hname : name ∈ t.usedNames) :
    name ∈ t'.usedNames := by
  cases h with
  | read | warned | defined => exact hname
  | reserved | named => exact List.mem_cons_of_mem _ hname

theorem Steps.used (h : Steps o loader t t') {name : String} (hname : name ∈ t.usedNames) :
    name ∈ t'.usedNames := by
  induction h with
  | refl => exact hname
  | tail _ hstep ih => exact hstep.used ih

/-- Every target that has a name keeps it. -/
def Keeps (t t' : Progress) : Prop :=
  ∀ key name, t.named.lookup key = some name → t'.named.lookup key = some name

theorem Keeps.refl (t : Progress) : t.Keeps t := fun _ _ h => h

theorem Keeps.trans {t'' : Progress} (h : t.Keeps t') (h' : t'.Keeps t'') : t.Keeps t'' :=
  fun key name hname => h' key name (h key name hname)

theorem Keeps.of_named_eq {t'' : Progress} (h : t.Keeps t') (hnamed : t''.named = t'.named) :
    t.Keeps t'' := by
  intro key name hname
  rw [hnamed]
  exact h key name hname

theorem Step.keeps (h : Step o loader t t') : t.Keeps t' := by
  intro other name hother
  cases h with
  | read | warned | reserved | defined => exact hother
  | @named key base hkey =>
    change List.lookup other ((key, _) :: t.named) = some name
    rw [List.lookup_cons]
    have hne : other ≠ key := by
      rintro rfl
      rw [hkey] at hother
      cases hother
    rw [beq_eq_false_iff_ne.mpr hne]
    exact hother

theorem Steps.keeps (h : Steps o loader t t') : t.Keeps t' := by
  induction h with
  | refl => exact .refl t
  | tail _ hstep ih => exact ih.trans hstep.keeps

end Progress

/-! ## Every conversion makes progress by these changes -/

/-- Whatever comes of a computation, it ends after some changes. -/
def Moves {α : Type} (o : ImportOptions) (loader : Loader) (x : Convert α) : Prop :=
  ∀ t : Progress, t.lookup.Valid loader → t.Steps o loader (outcome x t).2

namespace Moves

variable {α β : Type} {o : ImportOptions} {loader : Loader}

theorem pure (a : α) : Moves o loader (Pure.pure a) := fun _ _ => .refl

theorem ofExcept (y : Except Failure α) : Moves o loader (Schema.ofExcept y) := fun _ _ => .refl

theorem tooDeep : Moves o loader (α := α) Schema.tooDeep := fun _ _ => .refl

theorem warn (warning : String) : Moves o loader (Schema.warn warning) :=
  fun _ _ => .single (.warned warning)

theorem of_searches {x : Convert α} {y : Except Failure α} (h : Searches loader x y) :
    Moves o loader x := by
  intro t ht
  obtain ⟨m, hm, hx⟩ := h t ht
  rw [hx]
  exact .single (.read hm)

theorem bind {x : Convert α} {f : α → Convert β} (hx : Moves o loader x)
    (hf : ∀ a, Moves o loader (f a)) : Moves o loader (x >>= f) := by
  intro t ht
  have hsteps := hx t ht
  rw [outcome_bind]
  generalize outcome x t = out at hsteps ⊢
  obtain ⟨e | a, u⟩ := out
  · exact hsteps
  · exact hsteps.trans (hf a u (hsteps.valid ht))

theorem mapM {f : α → Convert β} {as : List α} (h : ∀ a ∈ as, Moves o loader (f a)) :
    Moves o loader (as.mapM f) := by
  induction as with
  | nil => exact pure []
  | cons a as ih =>
    rw [List.mapM_cons]
    refine (h a List.mem_cons_self).bind fun b => ?_
    exact (ih fun c hc => h c (List.mem_cons_of_mem a hc)).bind fun _ => pure _

end Moves

variable {s : Setting}

theorem moves_target (r : String) (context : ReferenceContext) :
    Moves s.options s.resolver.loader (target s r context) :=
  .of_searches (searches_target r context)

theorem moves_compose (depth : Nat) (trail : Trail) (schema : Document)
    (context : ReferenceContext) (c : Composition) :
    Moves s.options s.resolver.loader (compose s depth trail schema context c) :=
  .of_searches (searches_compose depth trail schema context c)

theorem outcome_reserve (base : String) (t : Progress) :
    outcome (reserve s base) t =
      (.ok (t.freeName s.options base), t.reserving s.options base) := rfl

theorem outcome_defineOnce (inner : FieldType) (trail : Trail) (target : ReferenceTarget)
    (base : String) (t : Progress) :
    outcome (defineOnce s inner trail target base) t =
      match t.named.lookup (targetKey target) with
      | some name => (.ok name, t)
      | none =>
        outcome (define s inner trail (t.freeName s.options base) target.schema target.context >>=
            fun _ => Pure.pure (t.freeName s.options base))
          (t.naming s.options (targetKey target) base) := by
  unfold defineOnce
  rw [outcome_bind, outcome_get]
  cases hknown : t.named.lookup (targetKey target) with
  | some name =>
    simp only [hknown]
    rfl
  | none =>
    simp only [hknown]
    rfl

section Inner

variable {inner : FieldType}
  (h : ∀ trail schema hint context,
    Moves s.options s.resolver.loader (inner trail schema hint context))

include h

theorem moves_convertRecord (trail : Trail) (schema : Document) (context : ReferenceContext) :
    Moves s.options s.resolver.loader (convertRecord s inner trail schema context) := by
  refine (moves_compose _ _ _ _ _).bind fun c => ?_
  refine (Moves.mapM fun p _ => ?_).bind fun _ => .pure _
  exact ((h _ _ _ _).bind fun _ => .pure _).bind fun _ => .pure _

/-- Fields are given to a definition whose name is reserved. -/
theorem steps_define {t : Progress} (ht : t.lookup.Valid s.resolver.loader) {name : String}
    (hname : name ∈ t.usedNames) (trail : Trail) (schema : Document)
    (context : ReferenceContext) :
    t.Steps s.options s.resolver.loader
      (outcome (define s inner trail name schema context) t).2 := by
  have hsteps := moves_convertRecord h trail schema context t ht
  unfold define
  rw [outcome_bind]
  generalize outcome (convertRecord s inner trail schema context) t = out at hsteps ⊢
  obtain ⟨e | d, u⟩ := out
  · exact hsteps
  · exact hsteps.tail (.defined d (hsteps.used hname))

theorem moves_inlineDefinition (trail : Trail) (schema : Document) (hint : String)
    (context : ReferenceContext) :
    Moves s.options s.resolver.loader (inlineDefinition s inner trail schema hint context) := by
  intro t ht
  have hreserved : t.Steps s.options s.resolver.loader (t.reserving s.options hint) :=
    .single (.reserved hint)
  have hsteps := steps_define h (hreserved.valid ht) List.mem_cons_self trail schema context
  unfold inlineDefinition
  rw [outcome_bind_of_ok (outcome_reserve hint t), outcome_bind]
  refine hreserved.trans ?_
  generalize outcome (define s inner trail _ schema context) _ = out at hsteps ⊢
  obtain ⟨e | d, u⟩ := out
  · exact hsteps
  · exact hsteps

theorem moves_defineOnce (trail : Trail) (target : ReferenceTarget) (base : String) :
    Moves s.options s.resolver.loader (defineOnce s inner trail target base) := by
  intro t ht
  rw [outcome_defineOnce]
  cases hknown : t.named.lookup (targetKey target) with
  | some name => exact .refl
  | none =>
    have hnamed : t.Steps s.options s.resolver.loader
        (t.naming s.options (targetKey target) base) := .single (.named base hknown)
    have hsteps := steps_define h (hnamed.valid ht) List.mem_cons_self trail target.schema
      target.context
    refine hnamed.trans ?_
    simp only
    rw [outcome_bind]
    generalize outcome (define s inner trail _ _ _) _ = out at hsteps ⊢
    obtain ⟨e | d, u⟩ := out
    · exact hsteps
    · exact hsteps

theorem Piece.moves (trail : Trail) (hint : String) (context : ReferenceContext) (p : Piece) :
    Moves s.options s.resolver.loader (p.convert inner trail hint context) := by
  cases p with
  | known type => exact .pure type
  | strange warning => exact (Moves.warn _).bind fun _ => .pure _
  | inner schema rename wrap => exact (h _ _ _ _).bind fun _ => .pure _

theorem moves_form (trail : Trail) (schema : Document) (hint : String)
    (context : ReferenceContext) (f : Form) :
    Moves s.options s.resolver.loader (f.convert s inner trail schema hint context) := by
  cases f with
  | reference r =>
    refine (moves_target r context).bind fun t => ?_
    split
    · exact (moves_defineOnce h trail t _).bind fun _ => .pure _
    · exact (Moves.ofExcept _).bind fun next => h _ _ _ _
  | record => exact (moves_inlineDefinition h trail schema hint context).bind fun _ => .pure _
  | pieces ps whole => exact (Moves.mapM fun p _ => p.moves h trail hint context).bind fun _ => .pure _

end Inner

/-- The conversion of a field makes progress by steps, under every bound. -/
theorem moves_fieldType (depth : Nat) (trail : Trail) (schema : Document) (hint : String)
    (context : ReferenceContext) :
    Moves s.options s.resolver.loader (fieldType s depth trail schema hint context) := by
  induction depth generalizing trail schema hint context with
  | zero => exact .tooDeep
  | succ depth ih =>
    rw [fieldType_succ]
    exact (moves_form ih trail schema hint context _).bind fun _ => .pure _

/-- A target that has got a definition has its name from then on. -/
theorem lookup_of_defineOnce {inner : FieldType}
    (h : ∀ trail schema hint context,
      Moves s.options s.resolver.loader (inner trail schema hint context))
    {t u : Progress} (ht : t.lookup.Valid s.resolver.loader) {trail : Trail}
    {target : ReferenceTarget} {base name : String}
    (hname : outcome (defineOnce s inner trail target base) t = (.ok name, u)) :
    u.named.lookup (targetKey target) = some name := by
  rw [outcome_defineOnce] at hname
  cases hknown : t.named.lookup (targetKey target) with
  | some known =>
    rw [hknown] at hname
    cases hname
    exact hknown
  | none =>
    rw [hknown] at hname
    obtain ⟨a, v, hdefine, hlast⟩ := outcome_bind_eq_ok_iff.mp hname
    cases hlast
    have hsteps := steps_define (t := t.naming s.options (targetKey target) base) h ht
      List.mem_cons_self trail target.schema target.context
    rw [hdefine] at hsteps
    refine hsteps.keeps _ _ ?_
    exact List.lookup_cons_self

end RecordDefinitions.Schema
