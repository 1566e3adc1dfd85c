import RecordDefinitions.Proofs.Outcome
import RecordDefinitions.Proofs.Schema.Form

/-!
# Relations between conversions

Conversions of the same schema may differ in their bounds, or in the references that are being
followed. Where a relation goes over from computations to what they are put together to, it holds
of two conversions if it holds of the conversions inside them and where references are entered.
-/

namespace RecordDefinitions.Schema

/-- The same setting with another bound. -/
def Setting.within (s : Setting) (bound : Nat) : Setting := { s with bound }

/-- The definition of a target under a name from some base, unless it has one. -/
def defineOnce (s : Setting) (inner : FieldType) (trail : Trail) (target : ReferenceTarget)
    (base : String) : Convert String := do
  match (← get).named.lookup (targetKey target) with
  | some name => return name
  | none => defineTarget s inner trail target base

theorem targetDefinition_eq {s : Setting} (inner : FieldType) (trail : Trail)
    (target : ReferenceTarget) (hint : String) :
    targetDefinition s inner trail target hint =
      defineOnce s inner trail target ((suggestedName? target).getD hint) := rfl

/-- A relation that holds of every computation and itself, and of computations that do one thing
after another if it holds step by step. -/
structure Congruence (rel : ∀ ⦃α : Type⦄, Convert α → Convert α → Prop) : Prop where
  refl : ∀ {α : Type} (x : Convert α), rel x x
  bind : ∀ {α β : Type} {x y : Convert α} {f g : α → Convert β},
    rel x y → (∀ a, rel (f a) (g a)) → rel (x >>= f) (y >>= g)

namespace Congruence

variable {rel : ∀ ⦃α : Type⦄, Convert α → Convert α → Prop} (hrel : Congruence rel)

include hrel

theorem mapM {α β : Type} {f g : α → Convert β} (as : List α) (h : ∀ a, rel (f a) (g a)) :
    rel (as.mapM f) (as.mapM g) := by
  induction as with
  | nil => exact hrel.refl _
  | cons a as ih =>
    rw [List.mapM_cons, List.mapM_cons]
    exact hrel.bind (h a) fun _ => hrel.bind ih fun _ => hrel.refl _

theorem foldlM {α β : Type} {f g : β → α → Convert β} (as : List α) (c : β)
    (h : ∀ c a, rel (f c a) (g c a)) : rel (as.foldlM f c) (as.foldlM g c) := by
  induction as generalizing c with
  | nil => exact hrel.refl _
  | cons a as ih =>
    rw [List.foldlM_cons, List.foldlM_cons]
    exact hrel.bind (h c a) ih

section Conversions

variable {s : Setting} {b b' : Nat} {inner inner' : FieldType} {trail trail' : Trail}
  (hinner : ∀ schema hint context,
    rel (inner trail schema hint context) (inner' trail' schema hint context))

include hinner

theorem field (name : String) (required : Bool) (p : Property) :
    rel (convertField inner trail name required p) (convertField inner' trail' name required p) :=
  hrel.bind (hinner _ _ _) fun _ => hrel.refl _

theorem piece (hint : String) (context : ReferenceContext) (p : Piece) :
    rel (p.convert inner trail hint context) (p.convert inner' trail' hint context) := by
  cases p with
  | known type => exact hrel.refl _
  | strange warning => exact hrel.refl _
  | inner schema rename wrap => exact hrel.bind (hinner _ _ _) fun _ => hrel.refl _

variable (hparts : ∀ schema context,
  rel (compose (s.within b) b trail schema context .empty)
    (compose (s.within b') b' trail' schema context .empty))

include hparts

theorem record (schema : Document) (context : ReferenceContext) :
    rel (convertRecord (s.within b) inner trail schema context)
      (convertRecord (s.within b') inner' trail' schema context) := by
  refine hrel.bind (hparts schema context) fun c => ?_
  refine hrel.bind (hrel.mapM _ fun p => ?_) fun _ => hrel.refl _
  exact hrel.bind (hrel.field hinner _ _ _) fun _ => hrel.refl _

theorem define (name : String) (schema : Document) (context : ReferenceContext) :
    rel (Schema.define (s.within b) inner trail name schema context)
      (Schema.define (s.within b') inner' trail' name schema context) :=
  hrel.bind (hrel.record hinner hparts schema context) fun _ => hrel.refl _

theorem defineOnce (t : ReferenceTarget) (base : String) :
    rel (Schema.defineOnce (s.within b) inner trail t base)
      (Schema.defineOnce (s.within b') inner' trail' t base) := by
  refine hrel.bind (hrel.refl _) fun progress => ?_
  cases progress.named.lookup (targetKey t) with
  | some name => exact hrel.refl _
  | none =>
    refine hrel.bind (hrel.refl _) fun name => hrel.bind (hrel.refl _) fun _ => ?_
    exact hrel.bind (hrel.define hinner hparts _ _ _) fun _ => hrel.refl _

/-- One step of the conversion of a field. -/
theorem form (henter : ∀ (x : ReferenceTarget) (r hint : String),
      rel (ofExcept (trail.enter (targetKey x) r) >>= (inner · x.schema hint x.context))
        (ofExcept (trail'.enter (targetKey x) r) >>= (inner' · x.schema hint x.context)))
    (schema : Document) (hint : String) (context : ReferenceContext) (f : Form) :
    rel (f.convert (s.within b) inner trail schema hint context)
      (f.convert (s.within b') inner' trail' schema hint context) := by
  cases f with
  | reference r =>
    refine hrel.bind (hrel.refl _) fun x => ?_
    split
    · exact hrel.bind (hrel.defineOnce hinner hparts _ _) fun _ => hrel.refl _
    · exact henter x r hint
  | record =>
    refine hrel.bind (hrel.bind (hrel.refl _) fun name => ?_) fun _ => hrel.refl _
    exact hrel.bind (hrel.define hinner hparts _ _ _) fun _ => hrel.refl _
  | pieces ps whole =>
    exact hrel.bind (hrel.mapM _ fun p => hrel.piece hinner hint context p) fun _ => hrel.refl _

end Conversions

end Congruence

end RecordDefinitions.Schema
