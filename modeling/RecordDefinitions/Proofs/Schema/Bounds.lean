import RecordDefinitions.Proofs.Schema.Congruence

/-!
# Bounds on the nesting of schemas

A conversion has two bounds, one on fields inside fields and one on parts that are put
together. A greater bound changes nothing but that a conversion may go on where it
stopped before.
-/

namespace RecordDefinitions.Schema

/-- The failure of a conversion that has used up its bound. -/
def endless : Failure := .malformed .endlessReferences

variable {s : Setting} {b b' d d' : Nat}

theorem approximates_congruence :
    Congruence fun _ (x y : Convert _) => Approximates endless x y where
  refl := .refl
  bind := .bind

theorem compose_approximates (hd : d ≤ d') (trail : Trail) (schema : Document)
    (context : ReferenceContext) (c : Composition) :
    Approximates endless (compose (s.within b) d trail schema context c)
      (compose (s.within b') d' trail schema context c) := by
  induction d generalizing d' trail schema context c with
  | zero => exact .of_stop
  | succ d ih =>
    obtain ⟨d', rfl⟩ := Nat.exists_eq_add_of_le' hd
    rw [show d' + (d + 1) = d' + d + 1 from rfl, compose, compose]
    have hd : d ≤ d' + d := Nat.le_add_left d d'
    cases schema.string? "$ref" with
    | some r =>
      refine Approximates.bind (.refl _) fun t => Approximates.bind (.refl _) fun next => ?_
      exact ih hd next t.schema t.context c
    | none =>
      have hparts := fun c part => ih hd trail part context c
      exact Approximates.bind (approximates_congruence.foldlM _ c hparts) fun c => .refl _

section Inner

variable {inner inner' : FieldType} (hb : b ≤ b')
  (h : ∀ trail schema hint context,
    Approximates endless (inner trail schema hint context) (inner' trail schema hint context))

include hb h

theorem convertRecord_approximates (trail : Trail) (schema : Document)
    (context : ReferenceContext) :
    Approximates endless (convertRecord (s.within b) inner trail schema context)
      (convertRecord (s.within b') inner' trail schema context) :=
  approximates_congruence.record (h trail)
    (fun schema context => compose_approximates hb trail schema context .empty) schema context

theorem defineOnce_approximates (trail : Trail) (t : ReferenceTarget) (base : String) :
    Approximates endless (defineOnce (s.within b) inner trail t base)
      (defineOnce (s.within b') inner' trail t base) :=
  approximates_congruence.defineOnce (h trail)
    (fun schema context => compose_approximates hb trail schema context .empty) t base

end Inner

theorem fieldType_approximates (hb : b ≤ b') (hd : d ≤ d') (trail : Trail) (schema : Document)
    (hint : String) (context : ReferenceContext) :
    Approximates endless (fieldType (s.within b) d trail schema hint context)
      (fieldType (s.within b') d' trail schema hint context) := by
  induction d generalizing d' trail schema hint context with
  | zero => exact .of_stop
  | succ d ih =>
    obtain ⟨d', rfl⟩ := Nat.exists_eq_add_of_le' hd
    rw [show d' + (d + 1) = d' + d + 1 from rfl, fieldType_succ, fieldType_succ]
    have hinner := ih (Nat.le_add_left d d')
    refine Approximates.bind ?_ fun _ => .refl _
    refine approximates_congruence.form (hinner trail) ?_ ?_ schema hint context _
    · exact fun schema context => compose_approximates hb trail schema context .empty
    · exact fun x _ hint => .bind (.refl _) fun next => hinner next x.schema hint x.context

end RecordDefinitions.Schema
