import RecordDefinitions.Proofs.Schema.Reach

/-!
# The references that are followed

The way of an import to a schema is made of legs. Each leg is a reference to a target
that stands in its place or is put together with other parts; on the way to the next
reference a record may be crossed. The trail is the legs without that.
-/

namespace RecordDefinitions.Schema

open Relation

/-- A reference that is followed. -/
structure Leg where
  reference : String
  target : ReferenceTarget
  /-- A record stands between the target before and the reference. -/
  crossing : Bool

/-- The trail of some legs. -/
def trailOf (legs : List Leg) : Trail := legs.map fun l => (targetKey l.target, l.reference)

/-- A schema and the legs of the way to it. -/
structure Site where
  legs : List Leg
  /-- A record stands between the last target and the schema. -/
  crossing : Bool
  schema : Document
  context : ReferenceContext

/-- The way of an import to a conversion: its legs, and whether a record was crossed
after the last of them. -/
inductive Takes (s : Setting) (es : List Entry) : List Leg → Bool → Call × Progress → Prop
  | opened {n : Call × Progress} : Opens s es n → Takes s es [] true n
  | nested {legs : List Leg} {crossing : Bool} {m n : Call × Progress} :
    Takes s es legs crossing m → Nests s m n → Takes s es legs (crossing || isRecord m.1.schema) n
  | inPlace {legs : List Leg} {crossing : Bool} {c : Call} {t u : Progress} {r : String}
    {x : ReferenceTarget} {trail : Trail} :
    Takes s es legs crossing (c, t) → form c.schema = .reference r →
    outcome (target s r c.context) t = (.ok x, u) → ¬ isRecord x.schema →
    c.trail.enter (targetKey x) r = .ok trail →
      Takes s es (legs ++ [⟨r, x, crossing⟩]) false (⟨trail, x.schema, c.hint, x.context⟩, u)
  | property {legs : List Leg} {crossing : Bool} {c : Call} {t u : Progress} {r : String}
    {x : ReferenceTarget} {n : Call × Progress} :
    Takes s es legs crossing (c, t) → form c.schema = .reference r →
    outcome (target s r c.context) t = (.ok x, u) → isRecord x.schema →
    u.named.lookup (targetKey x) = none →
    Asks s c.trail x.schema x.context
      (u.naming s.options (targetKey x) ((suggestedName? x).getD c.hint)) n →
      Takes s es legs true n

/-- The parts of a schema are put together up to a member of its `allOf`, or to the
target of its reference. -/
inductive Pulls (resolver : ReferenceResolver) : Site → Site → Prop
  | part {legs : List Leg} {crossing : Bool} {schema part : Document}
    {context : ReferenceContext} {before after : List Document} :
    schema.string? "$ref" = none → (schema.array? "allOf").getD [] = before ++ part :: after →
    (∀ p ∈ before, ∃ depth comp,
      composed resolver depth (trailOf legs) p context .empty = .ok comp) →
      Pulls resolver ⟨legs, crossing, schema, context⟩ ⟨legs, crossing, part, context⟩
  | reference {legs : List Leg} {crossing : Bool} {schema : Document}
    {context : ReferenceContext} {r : String} {x : ReferenceTarget} :
    schema.string? "$ref" = some r → targetOf resolver r context = .ok x →
    targetKey x ∉ (trailOf legs).keys →
      Pulls resolver ⟨legs, crossing, schema, context⟩
        ⟨legs ++ [⟨r, x, crossing⟩], false, x.schema, x.context⟩

/-- The records whose parts an import puts together: those of entries, those that stand
in their place, and the targets that have no name so far. -/
inductive Composes (s : Setting) (es : List Entry) : Site → Prop
  | entry {e : Entry} {t : Progress} :
    Begins s es e t → Composes s es ⟨[], true, e.target.schema, e.target.context⟩
  | inPlace {legs : List Leg} {crossing : Bool} {m : Call × Progress} :
    Takes s es legs crossing m → form m.1.schema = .record →
      Composes s es ⟨legs, true, m.1.schema, m.1.context⟩
  | target {legs : List Leg} {crossing : Bool} {m : Call × Progress} {r : String}
    {x : ReferenceTarget} :
    Takes s es legs crossing m → form m.1.schema = .reference r →
    targetOf s.resolver r m.1.context = .ok x → isRecord x.schema →
    m.2.named.lookup (targetKey x) = none → Composes s es ⟨legs, true, x.schema, x.context⟩

/-- The reference at a site leads to a target that is followed already. -/
structure Site.Closing (resolver : ReferenceResolver) (site : Site) (closing : Leg) : Prop where
  reference : site.schema.string? "$ref" = some closing.reference
  target : targetOf resolver closing.reference site.context = .ok closing.target
  crossing : closing.crossing = site.crossing
  followed : targetKey closing.target ∈ (trailOf site.legs).keys

/-- After some legs an import comes to a reference whose target is followed already. -/
inductive Closes (s : Setting) (es : List Entry) : List Leg → Leg → Prop
  | inPlace {legs : List Leg} {crossing : Bool} {m : Call × Progress} {closing : Leg} :
    Takes s es legs crossing m → form m.1.schema = .reference closing.reference →
    ¬ isRecord closing.target.schema →
    Site.Closing s.resolver ⟨legs, crossing, m.1.schema, m.1.context⟩ closing →
      Closes s es legs closing
  | composing {start site : Site} {closing : Leg} :
    Composes s es start → ReflTransGen (Pulls s.resolver) start site →
    site.Closing s.resolver closing → Closes s es site.legs closing

/-- The legs from the first to the target of a closing leg on, with that. -/
def loopOf (legs : List Leg) (closing : Leg) : List Leg :=
  legs.dropWhile (fun l => targetKey l.target ≠ targetKey closing.target) ++ [closing]

variable {s : Setting} {es : List Entry} {legs : List Leg} {crossing : Bool}
  {m n : Call × Progress} {closing : Leg} {resolver : ReferenceResolver} {f : Failure}
  {chain : List String}

theorem trailOf_append (legs : List Leg) (l : Leg) :
    trailOf (legs ++ [l]) = trailOf legs ++ [(targetKey l.target, l.reference)] := by
  simp [trailOf]

/-- A reference closes a cycle if its target is on the trail. -/
theorem enter_eq_error_iff {r : String} {x : ReferenceTarget} (crossing : Bool) :
    (trailOf legs).enter (targetKey x) r = .error f ↔
      targetKey x ∈ (trailOf legs).keys ∧
        f = .cyclicReference ((loopOf legs ⟨r, x, crossing⟩).map Leg.reference) := by
  have hchain : ((trailOf legs).dropWhile (·.1 ≠ targetKey x)).map Prod.snd ++ [r] =
      (loopOf legs ⟨r, x, crossing⟩).map Leg.reference := by
    unfold trailOf loopOf
    rw [List.dropWhile_map, List.map_map, List.map_append]
    rfl
  unfold Trail.enter
  split
  · rename_i hmem
    rw [hchain, Except.error.injEq]
    exact ⟨fun h => ⟨hmem, h.symm⟩, fun h => h.2.symm⟩
  · rename_i hmem
    simp [hmem]

theorem Site.Closing.enter {site : Site} (h : site.Closing resolver closing) :
    (trailOf site.legs).enter (targetKey closing.target) closing.reference =
      .error (.cyclicReference ((loopOf site.legs closing).map Leg.reference)) :=
  (enter_eq_error_iff closing.crossing).mpr ⟨h.followed, rfl⟩

theorem Takes.reached (h : Takes s es legs crossing m) : Reached s es m := by
  induction h with
  | opened hopens => exact ⟨_, hopens, .refl⟩
  | nested _ hnests ih =>
    obtain ⟨k, hopens, hstarts⟩ := ih
    exact ⟨k, hopens, hstarts.tail (.nested hnests)⟩
  | inPlace _ hform htarget hrecord henter ih =>
    obtain ⟨k, hopens, hstarts⟩ := ih
    exact ⟨k, hopens, hstarts.tail (.followed (.inPlace hform htarget hrecord henter))⟩
  | property _ hform htarget hrecord hnew hasks ih =>
    obtain ⟨k, hopens, hstarts⟩ := ih
    exact ⟨k, hopens, hstarts.tail (.followed (.property hform htarget hrecord hnew hasks))⟩

theorem exists_takes (h : Reached s es m) : ∃ legs crossing, Takes s es legs crossing m := by
  obtain ⟨k, hopens, hstarts⟩ := h
  induction hstarts with
  | refl => exact ⟨_, _, .opened hopens⟩
  | tail _ hlast ih =>
    obtain ⟨legs, crossing, htakes⟩ := ih
    rcases hlast with hnests | hfollows
    · exact ⟨_, _, htakes.nested hnests⟩
    · cases hfollows with
      | inPlace hform htarget hrecord henter =>
        exact ⟨_, _, htakes.inPlace hform htarget hrecord henter⟩
      | property hform htarget hrecord hnew hasks =>
        exact ⟨_, _, htakes.property hform htarget hrecord hnew hasks⟩

/-- The trail of a conversion is that of the legs of the way to it. -/
theorem Takes.trail_eq (h : Takes s es legs crossing m) : m.1.trail = trailOf legs := by
  induction h with
  | opened hopens =>
    cases hopens with
    | property _ hasks => exact hasks.trail_eq
  | nested _ hnests ih => exact hnests.trail_eq.trans ih
  | inPlace _ _ _ _ henter ih =>
    obtain ⟨-, hnext⟩ := Trail.enter_eq_ok_iff.mp henter
    rw [← hnext, ih, trailOf_append]
  | property _ _ _ _ _ hasks ih => exact hasks.trail_eq.trans ih

/-! ## Cycles among the parts of a record -/

/-- Whether parts can be put together does not depend on what they are added to. -/
theorem composed_error_of_error {depth : Nat} {trail : Trail} {schema : Document}
    {context : ReferenceContext} {c : Composition} (c' : Composition)
    (h : composed resolver depth trail schema context c = .error f) :
    composed resolver depth trail schema context c' = .error f := by
  induction depth generalizing trail schema context c c' f with
  | zero => exact h
  | succ depth ih =>
    cases hr : schema.string? "$ref" with
    | some r =>
      cases hx : targetOf resolver r context with
      | error e =>
        rw [composed_of_unresolved hr hx] at h ⊢
        exact h
      | ok x =>
        cases henter : trail.enter (targetKey x) r with
        | error e =>
          rw [composed_of_closed hr hx henter] at h ⊢
          exact h
        | ok next =>
          rw [composed_of_reference hr hx henter] at h ⊢
          exact ih c' h
    | none =>
      rw [composed_of_parts hr] at h ⊢
      rw [bind_pure_eq_error_iff] at h ⊢
      exact foldlM_error_of_error c' (fun part c c' e he => ih c' he) h

theorem composed_ok_of_ok {depth : Nat} {trail : Trail} {schema : Document}
    {context : ReferenceContext} {c d : Composition} (c' : Composition)
    (h : composed resolver depth trail schema context c = .ok d) :
    ∃ d', composed resolver depth trail schema context c' = .ok d' := by
  cases hc' : composed resolver depth trail schema context c' with
  | ok d' => exact ⟨d', rfl⟩
  | error e =>
    rw [composed_error_of_error c hc'] at h
    cases h

/-- Parts that fail to be put together with a cycle lead to the reference that closes it. -/
theorem exists_pulls_of_error {depth : Nat} {site : Site} {c : Composition}
    (h : composed resolver depth (trailOf site.legs) site.schema site.context c =
      .error (.cyclicReference chain)) :
    ∃ site' closing, ReflTransGen (Pulls resolver) site site' ∧ site'.Closing resolver closing ∧
      chain = (loopOf site'.legs closing).map Leg.reference := by
  induction depth generalizing site c with
  | zero => cases h
  | succ depth ih =>
    obtain ⟨legs, crossing, schema, context⟩ := site
    simp only at h
    cases hr : schema.string? "$ref" with
    | some r =>
      cases hx : targetOf resolver r context with
      | error e =>
        rw [composed_of_unresolved hr hx] at h
        cases h
        obtain ⟨m, -, hm⟩ := malformed_of_targetOf hx
        cases hm
      | ok x =>
        cases henter : (trailOf legs).enter (targetKey x) r with
        | error e =>
          rw [composed_of_closed hr hx henter] at h
          cases h
          obtain ⟨hmem, hchain⟩ := (enter_eq_error_iff crossing).mp henter
          exact ⟨_, ⟨r, x, crossing⟩, .refl, ⟨hr, hx, rfl, hmem⟩, Failure.cyclicReference.inj hchain⟩
        | ok next =>
          rw [composed_of_reference hr hx henter] at h
          obtain ⟨hnew, rfl⟩ := Trail.enter_eq_ok_iff.mp henter
          have hnext : trailOf (legs ++ [⟨r, x, crossing⟩]) = trailOf legs ++ [(targetKey x, r)] :=
            trailOf_append legs _
          rw [← hnext] at h
          let next : Site := ⟨legs ++ [⟨r, x, crossing⟩], false, x.schema, x.context⟩
          have htarget : composed resolver depth (trailOf next.legs) next.schema next.context c =
              .error (.cyclicReference chain) := h
          obtain ⟨site', closing, hpulls, hclosing, hchain⟩ := ih htarget
          exact ⟨site', closing, .head (.reference hr hx hnew) hpulls, hclosing, hchain⟩
    | none =>
      rw [composed_of_parts hr, bind_pure_eq_error_iff] at h
      obtain ⟨before, part, after, c', hparts, hbefore, hpart⟩ := foldlM_eq_error_iff.mp h
      let next : Site := ⟨legs, crossing, part, context⟩
      have hnext : composed resolver depth (trailOf next.legs) next.schema next.context c' =
          .error (.cyclicReference chain) := hpart
      obtain ⟨site', closing, hpulls, hclosing, hchain⟩ := ih hnext
      refine ⟨site', closing, .head (.part hr hparts fun p hp => ?_) hpulls, hclosing, hchain⟩
      obtain ⟨d, d', hd⟩ := exists_of_foldlM_ok hbefore p hp
      exact ⟨depth, composed_ok_of_ok .empty hd⟩

theorem composed_error_of_le {d d' : Nat} (h : d ≤ d') {trail : Trail} {schema : Document}
    {context : ReferenceContext} {c : Composition} (hf : f ≠ endless)
    (hd : composed resolver d trail schema context c = .error f) :
    composed resolver d' trail schema context c = .error f := by
  rcases composed_mono resolver h trail schema context c with hstop | hsame
  · rw [hd] at hstop
    exact absurd (Except.error.inj hstop) hf
  · rw [← hsame, hd]

theorem composed_ok_of_le {d d' : Nat} (h : d ≤ d') {trail : Trail} {schema : Document}
    {context : ReferenceContext} {c comp : Composition}
    (hd : composed resolver d trail schema context c = .ok comp) :
    composed resolver d' trail schema context c = .ok comp := by
  rcases composed_mono resolver h trail schema context c with hstop | hsame
  · rw [hd] at hstop
    cases hstop
  · rw [← hsame, hd]

/-- Parts each of which can be put together can be put together one after the other. -/
theorem exists_foldlM_eq_ok {trail : Trail} {context : ReferenceContext} {parts : List Document}
    (h : ∀ p ∈ parts, ∃ depth comp, composed resolver depth trail p context .empty = .ok comp) :
    ∃ n, ∀ n' ≥ n, ∀ c, ∃ comp,
      parts.foldlM (fun c p => composed resolver n' trail p context c) c = .ok comp := by
  induction parts with
  | nil => exact ⟨0, fun _ _ c => ⟨c, rfl⟩⟩
  | cons part parts ih =>
    obtain ⟨depth, comp, hpart⟩ := h part List.mem_cons_self
    obtain ⟨n, hn⟩ := ih fun p hp => h p (List.mem_cons_of_mem part hp)
    refine ⟨max depth n, fun n' hn' c => ?_⟩
    obtain ⟨d, hd⟩ :=
      composed_ok_of_ok c (composed_ok_of_le (le_trans (Nat.le_max_left depth n) hn') hpart)
    rw [List.foldlM_cons, hd]
    exact hn n' (le_trans (Nat.le_max_right depth n) hn') d

/-- What a part fails with, the whole fails with. -/
theorem Pulls.composed_error {site site' : Site} (h : Pulls resolver site site') {depth : Nat}
    (hf : f ≠ endless)
    (hfails : composed resolver depth (trailOf site'.legs) site'.schema site'.context .empty =
      .error f) :
    ∃ depth, composed resolver depth (trailOf site.legs) site.schema site.context .empty =
      .error f := by
  cases h with
  | @part legs crossing schema part context before after hr hparts hbefore =>
    obtain ⟨n, hn⟩ := exists_foldlM_eq_ok hbefore
    obtain ⟨comp, hcomp⟩ := hn (max n depth) (Nat.le_max_left n depth) .empty
    have hpart := composed_error_of_error comp
      (composed_error_of_le (Nat.le_max_right n depth) hf hfails)
    refine ⟨max n depth + 1, ?_⟩
    simp only
    rw [composed_of_parts hr, hparts, bind_pure_eq_error_iff, foldlM_eq_error_iff]
    exact ⟨before, part, after, comp, rfl, hcomp, hpart⟩
  | @reference legs crossing schema context r x hr hx hnew =>
    have henter : (trailOf legs).enter (targetKey x) r =
        .ok (trailOf (legs ++ [⟨r, x, crossing⟩])) :=
      Trail.enter_eq_ok_iff.mpr ⟨hnew, (trailOf_append legs ⟨r, x, crossing⟩).symm⟩
    exact ⟨depth + 1, (composed_of_reference hr hx henter).trans hfails⟩

theorem composed_error_of_pulls {site site' : Site}
    (h : ReflTransGen (Pulls resolver) site site') (hclosing : site'.Closing resolver closing) :
    ∃ depth, composed resolver depth (trailOf site.legs) site.schema site.context .empty =
      .error (.cyclicReference ((loopOf site'.legs closing).map Leg.reference)) := by
  induction h using ReflTransGen.head_induction_on with
  | refl => exact ⟨1, composed_of_closed hclosing.reference hclosing.target hclosing.enter⟩
  | head hfirst _ ih =>
    obtain ⟨depth, hdepth⟩ := ih
    exact hfirst.composed_error (by simp [endless]) hdepth

/-! ## Cycles that an import reports -/

theorem exists_closes_of_composed {start : Site} {depth : Nat} (hstart : Composes s es start)
    (hfails : composed s.resolver depth (trailOf start.legs) start.schema start.context .empty =
      .error (.cyclicReference chain)) :
    ∃ legs closing, Closes s es legs closing ∧ (loopOf legs closing).map Leg.reference = chain := by
  obtain ⟨site, closing, hpulls, hclosing, rfl⟩ := exists_pulls_of_error hfails
  exact ⟨_, _, .composing hstart hpulls hclosing, rfl⟩

/-- A conversion that fails with a cycle by itself closes it. -/
theorem exists_closes_of_halts (htakes : Takes s es legs crossing m)
    (h : Halts s m (.cyclicReference chain)) :
    ∃ legs closing, Closes s es legs closing ∧ (loopOf legs closing).map Leg.reference = chain := by
  have htrail := htakes.trail_eq
  cases h with
  | unresolved _ hx =>
    obtain ⟨m, -, hm⟩ := malformed_of_targetOf hx
    cases hm
  | @closed c t r x _ hform hx hrecord henter =>
    rw [htrail] at henter
    obtain ⟨hmem, hchain⟩ := (enter_eq_error_iff crossing).mp henter
    refine ⟨legs, ⟨r, x, crossing⟩, .inPlace htakes hform hrecord
      ⟨reference_of_form hform, hx, rfl, hmem⟩, ?_⟩
    exact (Failure.cyclicReference.inj hchain).symm
  | parts hform hfails _ =>
    rw [htrail] at hfails
    exact exists_closes_of_composed (.inPlace htakes hform) hfails
  | targetParts hform hx hrecord hnew hfails _ =>
    rw [htrail] at hfails
    exact exists_closes_of_composed (.target htakes hform hx hrecord hnew) hfails

theorem Takes.fails (h : Takes s es legs crossing m) (hf : f ≠ endless) (hhalts : Halts s m f) :
    ∃ i, Fails (convertAll s i es) .empty f := by
  obtain ⟨c, t⟩ := m
  obtain ⟨i, hi⟩ := hhalts.fails h.reached.valid
  exact h.reached.fails hf hi

theorem Composes.fails {start : Site} (h : Composes s es start) {depth : Nat} (hf : f ≠ endless)
    (hfails : composed s.resolver depth (trailOf start.legs) start.schema start.context .empty =
      .error f) :
    ∃ i, Fails (convertAll s i es) .empty f := by
  cases h with
  | entry hbegins => exact hbegins.fails hf hfails
  | @inPlace legs crossing m htakes hform =>
    obtain ⟨c, t⟩ := m
    rw [← htakes.trail_eq] at hfails
    exact htakes.fails hf (.parts hform hfails hf)
  | @target legs crossing m r x htakes hform hx hrecord hnew =>
    obtain ⟨c, t⟩ := m
    rw [← htakes.trail_eq] at hfails
    exact htakes.fails hf (.targetParts hform hx hrecord hnew hfails hf)

theorem Closes.fails (h : Closes s es legs closing) :
    ∃ i, Fails (convertAll s i es) .empty
      (.cyclicReference ((loopOf legs closing).map Leg.reference)) := by
  have hne : Failure.cyclicReference ((loopOf legs closing).map Leg.reference) ≠ endless := by
    simp [endless]
  cases h with
  | @inPlace legs crossing m closing htakes hform hrecord hclosing =>
    have henter := hclosing.enter
    obtain ⟨c, t⟩ := m
    simp only at henter
    rw [← htakes.trail_eq] at henter
    exact htakes.fails hne (.closed hform hclosing.target hrecord henter)
  | composing hstart hpulls hclosing =>
    obtain ⟨depth, hfails⟩ := composed_error_of_pulls hpulls hclosing
    exact hstart.fails hne hfails

/-- An import fails with a cycle if and only if it comes to a reference that closes it. -/
theorem fails_cyclic_iff :
    (∃ i, Fails (convertAll s i es) .empty (.cyclicReference chain)) ↔
      ∃ legs closing, Closes s es legs closing ∧
        (loopOf legs closing).map Leg.reference = chain := by
  constructor
  · intro h
    rcases (fails_iff (by simp [endless])).mp h with
      ⟨e, t, depth, hbegins, hfails⟩ | ⟨m, hreached, hhalts⟩
    · exact exists_closes_of_composed (.entry hbegins) hfails
    · obtain ⟨legs, crossing, htakes⟩ := exists_takes hreached
      exact exists_closes_of_halts htakes hhalts
  · rintro ⟨legs, closing, hcloses, rfl⟩
    exact hcloses.fails

end RecordDefinitions.Schema
