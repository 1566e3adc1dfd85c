import RecordDefinitions.Proofs.Import.Lookup
import RecordDefinitions.Proofs.Schema.Bounds

/-!
# Putting schemas together

What a reference leads to, and the properties of a schema with its parts, follow from
the documents alone. The conversion finds the same, and changes nothing by it but the
memory of what was looked up.
-/

namespace RecordDefinitions.Schema

/-- What a reference leads to, where it has to lead somewhere. -/
def targetOf (resolver : ReferenceResolver) (reference : String) (context : ReferenceContext) :
    Except Failure ReferenceTarget :=
  (resolver.found reference context).bind fun
    | some t => .ok t
    | none => .error (.malformed (.unresolvableReference reference))

/-- The properties of a schema with its parts, added to some others. -/
def composed (resolver : ReferenceResolver) :
    Nat → Trail → Document → ReferenceContext → Composition → Except Failure Composition
  | 0, _, _, _, _ => .error endless
  | depth + 1, trail, schema, context, c =>
    match schema.string? "$ref" with
    | some reference => do
      let t ← targetOf resolver reference context
      let trail ← trail.enter (targetKey t) reference
      composed resolver depth trail t.schema t.context c
    | none => do
      let c ← ((schema.array? "allOf").getD []).foldlM
        (fun c part => composed resolver depth trail part context c) c
      return c.declare schema context

section

variable {resolver : ReferenceResolver} {depth : Nat} {trail next : Trail} {schema : Document}
  {context : ReferenceContext} {c : Composition} {r : String} {x : ReferenceTarget} {e : Failure}

theorem composed_of_unresolved (hr : schema.string? "$ref" = some r)
    (hx : targetOf resolver r context = .error e) :
    composed resolver (depth + 1) trail schema context c = .error e := by
  rw [composed, hr]
  simp only [hx]
  rfl

theorem composed_of_closed (hr : schema.string? "$ref" = some r)
    (hx : targetOf resolver r context = .ok x)
    (henter : trail.enter (targetKey x) r = .error e) :
    composed resolver (depth + 1) trail schema context c = .error e := by
  rw [composed, hr]
  simp only [hx]
  change (trail.enter (targetKey x) r >>= _) = _
  rw [henter]
  rfl

theorem composed_of_reference (hr : schema.string? "$ref" = some r)
    (hx : targetOf resolver r context = .ok x)
    (henter : trail.enter (targetKey x) r = .ok next) :
    composed resolver (depth + 1) trail schema context c =
      composed resolver depth next x.schema x.context c := by
  conv_lhs => rw [composed, hr]
  simp only [hx]
  change (trail.enter (targetKey x) r >>= _) = _
  rw [henter]
  rfl

theorem composed_of_parts (hr : schema.string? "$ref" = none) :
    composed resolver (depth + 1) trail schema context c =
      ((schema.array? "allOf").getD []).foldlM
        (fun c part => composed resolver depth trail part context c) c >>= fun c =>
          pure (c.declare schema context) := by
  rw [composed, hr]

end

/-! ## Conversions that only look things up -/

/-- A computation that gives a certain result and at most remembers more documents. -/
def Searches {α : Type} (loader : Loader) (x : Convert α) (y : Except Failure α) : Prop :=
  ∀ t : Progress, t.lookup.Valid loader →
    ∃ m : LookupMemory, m.Valid loader ∧ outcome x t = (y, { t with lookup := m })

namespace Searches

variable {α β : Type} {loader : Loader}

theorem ofExcept (y : Except Failure α) : Searches loader (Schema.ofExcept y) y :=
  fun t ht => ⟨t.lookup, ht, rfl⟩

theorem pure (a : α) : Searches loader (Pure.pure a) (.ok a) := fun t ht => ⟨t.lookup, ht, rfl⟩

theorem tooDeep : Searches loader (α := α) Schema.tooDeep (.error endless) :=
  fun t ht => ⟨t.lookup, ht, rfl⟩

theorem bind {x : Convert α} {y : Except Failure α} {f : α → Convert β}
    {g : α → Except Failure β} (hx : Searches loader x y)
    (hf : ∀ a, Searches loader (f a) (g a)) : Searches loader (x >>= f) (y >>= g) := by
  intro t ht
  obtain ⟨m, hm, hxt⟩ := hx t ht
  rw [outcome_bind, hxt]
  cases y with
  | error e => exact ⟨m, hm, rfl⟩
  | ok a => exact hf a { t with lookup := m } hm

theorem foldlM {γ : Type} {f : γ → α → Convert γ} {g : γ → α → Except Failure γ} {as : List α}
    {c : γ} (h : ∀ c a, Searches loader (f c a) (g c a)) :
    Searches loader (as.foldlM f c) (as.foldlM g c) := by
  induction as generalizing c with
  | nil => exact pure c
  | cons a as ih =>
    rw [List.foldlM_cons, List.foldlM_cons]
    exact (h c a).bind fun d => ih

end Searches

variable {s : Setting}

theorem outcome_ofLookup {α : Type} (lookup : Lookup α) (t : Progress) :
    outcome (ofLookup lookup) t =
      ((outcome lookup t.lookup).1, { t with lookup := (outcome lookup t.lookup).2 }) := rfl

theorem searches_target (reference : String) (context : ReferenceContext) :
    Searches s.resolver.loader (target s reference context)
      (targetOf s.resolver reference context) := by
  have hlookup : Searches s.resolver.loader (ofLookup (s.resolver.resolve reference context))
      (s.resolver.found reference context) := by
    intro t ht
    obtain ⟨hvalue, hvalid⟩ := ReferenceResolver.outcome_resolve ht reference context
    exact ⟨_, hvalid, by rw [outcome_ofLookup, hvalue]⟩
  refine hlookup.bind fun found => ?_
  cases found with
  | none => exact .ofExcept _
  | some t => exact .pure t

theorem searches_compose (depth : Nat) (trail : Trail) (schema : Document)
    (context : ReferenceContext) (c : Composition) :
    Searches s.resolver.loader (compose s depth trail schema context c)
      (composed s.resolver depth trail schema context c) := by
  induction depth generalizing trail schema context c with
  | zero => exact .tooDeep
  | succ depth ih =>
    unfold compose composed
    cases schema.string? "$ref" with
    | some r =>
      refine (searches_target r context).bind fun t => ?_
      exact (Searches.ofExcept _).bind fun next => ih next t.schema t.context c
    | none =>
      exact (Searches.foldlM fun c part => ih trail part context c).bind fun c => .pure _

/-! ## References -/

variable {resolver : ReferenceResolver}

theorem targetOf_eq_ok_iff {reference : String} {context : ReferenceContext}
    {t : ReferenceTarget} :
    targetOf resolver reference context = .ok t ↔
      resolver.found reference context = .ok (some t) := by
  unfold targetOf
  rcases resolver.found reference context with e | _ | x <;> simp [Except.bind]

theorem malformed_of_targetOf {reference : String} {context : ReferenceContext} {e : Failure}
    (h : targetOf resolver reference context = .error e) :
    ∃ m, m ≠ .endlessReferences ∧ e = .malformed m := by
  unfold targetOf at h
  cases hfound : resolver.found reference context with
  | error e' =>
    rw [hfound] at h
    cases h
    obtain ⟨path, cause, rfl⟩ := ReferenceResolver.inFile_of_found_error hfound
    exact ⟨_, by simp, rfl⟩
  | ok found =>
    rw [hfound] at h
    cases found with
    | none =>
      cases h
      exact ⟨_, by simp, rfl⟩
    | some t => cases h

theorem targetOf_ne_endless {reference : String} {context : ReferenceContext} :
    targetOf resolver reference context ≠ .error endless := by
  intro h
  obtain ⟨m, hm, he⟩ := malformed_of_targetOf h
  cases he
  exact hm rfl

theorem enter_ne_endless {trail : Trail} {key : TargetKey} {reference : String} :
    trail.enter key reference ≠ .error endless := by
  unfold Trail.enter
  split <;> simp [endless]

end RecordDefinitions.Schema
