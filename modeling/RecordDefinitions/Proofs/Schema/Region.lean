import RecordDefinitions.Proofs.Document.Parts
import RecordDefinitions.Proofs.Schema.Replay

/-!
# The documents of a conversion

With finitely many documents at hand there are finitely many schemas that a conversion
can meet and finitely many targets that it can follow. Every conversion that is started
stays among them. In particular the parts of a record can always be put together, since
no target is entered twice.
-/

namespace RecordDefinitions.Schema

/-- No reference in one of the documents leads out of them. -/
def Closed (resolver : ReferenceResolver) (Known : ReferenceContext → Prop) : Prop :=
  ∀ context, Known context → ∀ r x, targetOf resolver r context = .ok x → Known x.context

/-- A schema is a part of one of the documents. -/
structure Lies (Known : ReferenceContext → Prop) (schema : Document)
    (context : ReferenceContext) : Prop where
  among : Known context
  inside : schema ∈ context.document.parts

/-- The targets of the references in the documents. -/
def targetKeys (resolver : ReferenceResolver) (contexts : List ReferenceContext) :
    List TargetKey :=
  contexts.flatMap fun context => context.document.parts.filterMap fun schema =>
    (schema.string? "$ref").bind fun r =>
      match targetOf resolver r context with
      | .ok x => some (targetKey x)
      | .error _ => none

/-- A trail over targets in the documents, none of them twice. -/
structure Trail.Over (trail : Trail) (keys : List TargetKey) : Prop where
  nodup : trail.keys.Nodup
  mem : ∀ key ∈ trail.keys, key ∈ keys

variable {resolver : ReferenceResolver} {Known : ReferenceContext → Prop}
  {contexts : List ReferenceContext} {keys : List TargetKey}
  {schema : Document} {context : ReferenceContext} {trail next : Trail} {r : String}
  {x : ReferenceTarget}

theorem Lies.part {part : Document} (h : Lies Known schema context)
    (hpart : part ∈ schema.parts) : Lies Known part context :=
  ⟨h.among, Document.parts_subset _ schema h.inside part hpart⟩

theorem Lies.target (h : Lies Known schema context) (hclosed : Closed resolver Known)
    (hx : targetOf resolver r context = .ok x) : Lies Known x.schema x.context :=
  ⟨hclosed context h.among r x hx, Pointer.mem_parts_of_find?
    (ReferenceResolver.target_of_found (targetOf_eq_ok_iff.mp hx)).1⟩

theorem Lies.mem_targetKeys (h : Lies (· ∈ contexts) schema context)
    (hr : schema.string? "$ref" = some r) (hx : targetOf resolver r context = .ok x) :
    targetKey x ∈ targetKeys resolver contexts := by
  unfold targetKeys
  rw [List.mem_flatMap]
  refine ⟨context, h.among, List.mem_filterMap.mpr ⟨schema, h.inside, ?_⟩⟩
  rw [hr, Option.bind_some, hx]

theorem Trail.over_nil (keys : List TargetKey) : Trail.Over [] keys :=
  ⟨List.nodup_nil, fun _ h => by cases h⟩

theorem Trail.Over.enter (h : trail.Over keys) (hx : targetKey x ∈ keys)
    (henter : trail.enter (targetKey x) r = .ok next) : next.Over keys := by
  refine ⟨Trail.nodup_keys_of_enter henter h.nodup, fun key hkey => ?_⟩
  obtain ⟨-, rfl⟩ := Trail.enter_eq_ok_iff.mp henter
  rw [Trail.keys, List.map_append, List.mem_append] at hkey
  rcases hkey with hkey | hkey
  · exact h.mem key hkey
  · rw [List.mem_singleton.mp hkey]
    exact hx

theorem Trail.Over.length_le (h : trail.Over keys) : trail.length ≤ keys.length := by
  have hlen := (h.nodup.subperm h.mem).length_le
  rwa [Trail.keys, List.length_map] at hlen

theorem Trail.length_of_enter {key : TargetKey} (h : trail.enter key r = .ok next) :
    next.length = trail.length + 1 := by
  obtain ⟨-, rfl⟩ := Trail.enter_eq_ok_iff.mp h
  simp

/-! ## Putting parts together -/

theorem sizeOf_lt_of_array? {d part : Document} {key : String} {items : List Document}
    (h : d.array? key = some items) (hm : part ∈ items) : sizeOf part < sizeOf d := by
  have hget := Document.get?_of_array? h
  cases d with
  | object members =>
    rw [Document.get?, Option.map_eq_some_iff] at hget
    obtain ⟨m, hfind, hmember⟩ := hget
    have hitem := List.sizeOf_lt_of_mem hm
    have hin := List.sizeOf_lt_of_mem (List.mem_of_find?_eq_some hfind)
    obtain ⟨k, e⟩ := m
    simp only at hmember
    subst hmember
    simp only [Prod.mk.sizeOf_spec, Document.array.sizeOf_spec, Document.object.sizeOf_spec] at *
    omega
  | _ => cases hget

theorem exists_foldlM_ne_endless {f : Nat → Composition → Document → Except Failure Composition}
    {parts : List Document}
    (h : ∀ part ∈ parts, ∃ n, ∀ n' ≥ n, ∀ c, f n' c part ≠ .error endless) :
    ∃ n, ∀ n' ≥ n, ∀ c, parts.foldlM (f n') c ≠ .error endless := by
  induction parts with
  | nil => exact ⟨0, fun _ _ c => by simp [pure, Except.pure]⟩
  | cons part parts ih =>
    obtain ⟨n, hn⟩ := h part List.mem_cons_self
    obtain ⟨k, hk⟩ := ih fun p hp => h p (List.mem_cons_of_mem part hp)
    refine ⟨max n k, fun n' hn' c => ?_⟩
    have hfirst := hn n' (le_trans (Nat.le_max_left n k) hn') c
    rw [List.foldlM_cons]
    cases hc : f n' c part with
    | error e =>
      rw [hc] at hfirst
      exact hfirst
    | ok d => exact hk n' (le_trans (Nat.le_max_right n k) hn') d

theorem mem_allOf {part : Document} (h : part ∈ (schema.array? "allOf").getD []) :
    part ∈ schema.parts ∧ sizeOf part < sizeOf schema := by
  cases hall : schema.array? "allOf" with
  | none =>
    rw [hall] at h
    cases h
  | some parts =>
    rw [hall] at h
    exact ⟨Document.mem_parts_of_array? hall h, sizeOf_lt_of_array? hall h⟩

/-- Parts can be put together in so many steps, since each reference that is followed
leads to a target that the trail does not hold, and other parts are smaller. -/
theorem exists_composed_ne_endless (hclosed : Closed resolver (· ∈ contexts)) (schema : Document)
    (context : ReferenceContext) (trail : Trail) (hlies : Lies (· ∈ contexts) schema context)
    (htrail : trail.Over (targetKeys resolver contexts)) :
    ∃ n, ∀ n' ≥ n, ∀ c, composed resolver n' trail schema context c ≠ .error endless := by
  cases hr : schema.string? "$ref" with
  | some r =>
    cases hx : targetOf resolver r context with
    | error e =>
      refine ⟨1, fun n' hn' c => ?_⟩
      obtain ⟨d, rfl⟩ := Nat.exists_eq_add_of_le' hn'
      rw [composed_of_unresolved hr hx]
      intro he
      rw [Except.error.injEq] at he
      exact targetOf_ne_endless (he ▸ hx)
    | ok x =>
      cases henter : trail.enter (targetKey x) r with
      | error e =>
        refine ⟨1, fun n' hn' c => ?_⟩
        obtain ⟨d, rfl⟩ := Nat.exists_eq_add_of_le' hn'
        rw [composed_of_closed hr hx henter]
        intro he
        rw [Except.error.injEq] at he
        exact enter_ne_endless (he ▸ henter)
      | ok next =>
        have hover := htrail.enter (hlies.mem_targetKeys hr hx) henter
        have hlen := hover.length_le
        have hnext := Trail.length_of_enter henter
        obtain ⟨n, hn⟩ := exists_composed_ne_endless hclosed x.schema x.context next
          (hlies.target hclosed hx) hover
        refine ⟨n + 1, fun n' hn' c => ?_⟩
        obtain ⟨d, rfl⟩ := Nat.exists_eq_add_of_le' hn'
        rw [show d + (n + 1) = d + n + 1 from rfl, composed_of_reference hr hx henter]
        exact hn (d + n) (Nat.le_add_left n d) c
  | none =>
    obtain ⟨n, hn⟩ := exists_foldlM_ne_endless
      (f := fun n c part => composed resolver n trail part context c)
      fun part hpart =>
        have hsize := (mem_allOf hpart).2
        exists_composed_ne_endless hclosed part context trail
          (hlies.part (mem_allOf hpart).1) htrail
    refine ⟨n + 1, fun n' hn' c => ?_⟩
    obtain ⟨d, rfl⟩ := Nat.exists_eq_add_of_le' hn'
    rw [show d + (n + 1) = d + n + 1 from rfl, composed_of_parts hr, ne_eq, bind_pure_eq_error_iff]
    exact hn (d + n) (Nat.le_add_left n d) c
termination_by ((targetKeys resolver contexts).length - trail.length, sizeOf schema)

/-! ## What is started stays in the documents -/

/-- The properties of a composition stand in the documents. -/
def Composition.Among (Known : ReferenceContext → Prop) (c : Composition) : Prop :=
  ∀ p ∈ c.properties.toList, Lies Known p.2.schema p.2.context

/-- What a schema adds to the properties stands in it. -/
theorem Composition.mem_declare {c : Composition} {p : String × Property}
    (h : p ∈ (c.declare schema context).properties.toList) :
    p ∈ c.properties.toList ∨ p.2.context = context ∧ p.2.schema ∈ schema.parts := by
  have hfold (members : List (String × Document)) (ps : Catalogue (String × Property))
      (hmembers : ∀ m ∈ members, m.2 ∈ schema.parts)
      (h : p ∈ (members.foldl (fun ps m => ps.insert (m.1, ⟨m.2, context⟩)) ps).toList) :
      p ∈ ps.toList ∨ p.2.context = context ∧ p.2.schema ∈ schema.parts := by
    induction members generalizing ps with
    | nil => exact Or.inl h
    | cons m members ih =>
      rw [List.foldl_cons] at h
      rcases ih _ (fun m' hm' => hmembers m' (List.mem_cons_of_mem m hm')) h with hp | hp
      · rcases Catalogue.mem_of_mem_insert hp with rfl | hp
        · exact Or.inr ⟨rfl, hmembers m List.mem_cons_self⟩
        · exact Or.inl hp
      · exact Or.inr hp
  refine hfold _ c.properties (fun m hm => ?_) h
  cases hprops : schema.object? "properties" with
  | none =>
    rw [hprops] at hm
    cases hm
  | some members =>
    rw [hprops] at hm
    exact Document.mem_parts_of_object? hprops hm

theorem Composition.among_declare {c : Composition} (h : c.Among Known)
    (hlies : Lies Known schema context) : (c.declare schema context).Among Known := by
  intro p hp
  rcases Composition.mem_declare hp with hp | ⟨hcontext, hschema⟩
  · exact h p hp
  · rw [hcontext]
    exact hlies.part hschema

theorem among_of_composed (hclosed : Closed resolver Known) {depth : Nat}
    {c comp : Composition} (hlies : Lies Known schema context) (hc : c.Among Known)
    (h : composed resolver depth trail schema context c = .ok comp) : comp.Among Known := by
  induction depth generalizing trail schema context c comp with
  | zero => cases h
  | succ depth ih =>
    cases hr : schema.string? "$ref" with
    | some r =>
      rw [composed, hr] at h
      obtain ⟨x, hx, h⟩ := bind_eq_ok_iff.mp h
      obtain ⟨next, -, h⟩ := bind_eq_ok_iff.mp h
      exact ih (hlies.target hclosed hx) hc h
    | none =>
      rw [composed_of_parts hr] at h
      obtain ⟨comp', hfold, hlast⟩ := bind_eq_ok_iff.mp h
      cases hlast
      clear h
      refine Composition.among_declare ?_ hlies
      have hparts : ∀ part ∈ (schema.array? "allOf").getD [], Lies Known part context :=
        fun part hpart => hlies.part (mem_allOf hpart).1
      generalize (schema.array? "allOf").getD [] = parts at hfold hparts
      induction parts generalizing c with
      | nil =>
        cases hfold
        exact hc
      | cons part parts ihparts =>
        rw [List.foldlM_cons] at hfold
        obtain ⟨c', hpart, hrest⟩ := bind_eq_ok_iff.mp hfold
        exact ihparts (ih (hparts part List.mem_cons_self) hc hpart) hrest
          fun p hp => hparts p (List.mem_cons_of_mem part hp)

variable {s : Setting} {t u : Progress} {c : Call} {n : Call × Progress}

/-- What is found does not depend on what was read before, and finding it gives no names. -/
theorem targetOf_of_outcome (ht : t.lookup.Valid s.resolver.loader)
    (h : outcome (target s r context) t = (.ok x, u)) :
    targetOf s.resolver r context = .ok x ∧ u.lookup.Valid s.resolver.loader ∧ u.named = t.named := by
  obtain ⟨m, hm, houtcome⟩ := searches_target (s := s) r context t ht
  obtain ⟨hx, rfl⟩ := Prod.mk.inj (houtcome.symm.trans h)
  exact ⟨hx, hm, rfl⟩

theorem Asks.lies (hclosed : Closed s.resolver Known) (hlies : Lies Known schema context)
    (ht : t.lookup.Valid s.resolver.loader) (h : Asks s trail schema context t n) :
    Lies Known n.1.schema n.1.context := by
  cases h with
  | property hcompose hprops _ =>
    obtain ⟨m, -, houtcome⟩ := searches_compose (s := s) _ trail schema context .empty t ht
    have hcomp := congrArg Prod.fst (houtcome.symm.trans hcompose)
    have hamong := among_of_composed hclosed hlies (fun _ hp => by cases hp) hcomp
    exact hamong _ (hprops ▸ List.mem_append_right _ List.mem_cons_self)

theorem Asks.trail_eq (h : Asks s trail schema context t n) : n.1.trail = trail := by
  cases h with
  | property _ _ _ => rfl

theorem Nests.lies (hclosed : Closed s.resolver Known) (hc : Lies Known c.schema c.context)
    (ht : t.lookup.Valid s.resolver.loader) (h : Nests s (c, t) n) :
    Lies Known n.1.schema n.1.context := by
  cases h with
  | piece hform _ =>
    exact hc.part (mem_parts_of_form hform (List.mem_append_right _ List.mem_cons_self))
  | property hform hasks => exact hasks.lies (t := t.reserving _ _) hclosed hc ht

theorem Nests.trail_eq {m : Call × Progress} (h : Nests s m n) : n.1.trail = m.1.trail := by
  cases h with
  | piece _ _ => rfl
  | property _ hasks => exact hasks.trail_eq

theorem Follows.lies (hclosed : Closed s.resolver Known) (hc : Lies Known c.schema c.context)
    (ht : t.lookup.Valid s.resolver.loader) (h : Follows s (c, t) n) :
    Lies Known n.1.schema n.1.context := by
  cases h with
  | inPlace _ htarget _ _ => exact hc.target hclosed (targetOf_of_outcome ht htarget).1
  | @property c t u r x _ _ htarget _ _ hasks =>
    obtain ⟨hx, hvalid, -⟩ := targetOf_of_outcome ht htarget
    exact hasks.lies (t := u.naming _ _ _) hclosed (hc.target hclosed hx) hvalid

/-- A conversion of a schema in the documents, under references in them. -/
structure Call.Within (resolver : ReferenceResolver) (contexts : List ReferenceContext)
    (c : Call) : Prop where
  lies : Lies (· ∈ contexts) c.schema c.context
  trail : c.trail.Over (targetKeys resolver contexts)

theorem Asks.within (hclosed : Closed s.resolver (· ∈ contexts))
    (hlies : Lies (· ∈ contexts) schema context)
    (htrail : trail.Over (targetKeys s.resolver contexts)) (ht : t.lookup.Valid s.resolver.loader)
    (h : Asks s trail schema context t n) :
    n.1.Within s.resolver contexts ∧ n.1.trail = trail := by
  refine ⟨⟨h.lies hclosed hlies ht, ?_⟩, h.trail_eq⟩
  rwa [h.trail_eq]

theorem Nests.within (hclosed : Closed s.resolver (· ∈ contexts)) (hc : c.Within s.resolver contexts)
    (ht : t.lookup.Valid s.resolver.loader) (h : Nests s (c, t) n) :
    n.1.Within s.resolver contexts ∧ n.1.trail = c.trail := by
  refine ⟨⟨h.lies hclosed hc.lies ht, ?_⟩, h.trail_eq⟩
  rw [h.trail_eq]
  exact hc.trail

/-- A reference that is followed makes the trail longer or gives a name to its target. -/
theorem Follows.within (hclosed : Closed s.resolver (· ∈ contexts))
    (hc : c.Within s.resolver contexts) (ht : t.lookup.Valid s.resolver.loader)
    (h : Follows s (c, t) n) :
    n.1.Within s.resolver contexts ∧
      (n.1.trail.length = c.trail.length + 1 ∨ n.1.trail = c.trail ∧
        ∃ key ∈ targetKeys s.resolver contexts, ∃ name, t.named.lookup key = none ∧
          n.2.named.lookup key = some name) := by
  have hlies := h.lies hclosed hc.lies ht
  cases h with
  | inPlace hform htarget _ henter =>
    have hkey := hc.lies.mem_targetKeys (reference_of_form hform) (targetOf_of_outcome ht htarget).1
    exact ⟨⟨hlies, hc.trail.enter hkey henter⟩, Or.inl (Trail.length_of_enter henter)⟩
  | @property c t u r x _ hform htarget _ hnew hasks =>
    obtain ⟨hx, hvalid, hnamed⟩ := targetOf_of_outcome ht htarget
    have hkey := hc.lies.mem_targetKeys (reference_of_form hform) hx
    have htrail := hasks.trail_eq
    have hkeeps := (hasks.steps (t := u.naming _ _ _) hvalid).keeps
    refine ⟨⟨hlies, ?_⟩, Or.inr ⟨htrail, targetKey x, hkey, _, ?_, hkeeps _ _ List.lookup_cons_self⟩⟩
    · rw [htrail]
      exact hc.trail
    · rwa [← hnamed]

end RecordDefinitions.Schema
