import RecordDefinitions.Proofs.Distinct
import RecordDefinitions.Proofs.Inference.Listing
import RecordDefinitions.Proofs.Inference.Places
import RecordDefinitions.Proofs.TypeExpr.Normal

/-!
# Where inferred definitions come from

Every inferred definition describes a list of objects of the document, its origin, and
describes it exactly: its fields are the keys of these objects, its marks say which
values are null or missing, and the members of a type are the kinds of values that stand
at its place. Where a type names a definition, the objects at that place are the origin
of the definition.
-/

namespace RecordDefinitions.Inference

/-- The lists of objects that definitions come from, under the names of the definitions. -/
abbrev Origins := List (String × List Sample)

/-- The kind of values that a member of a type is there for. -/
def memberKind? : TypeExpr → Option ValueKind
  | .scalar kind => some (.scalar kind)
  | .definition _ => some .object
  | .list _ => some .list
  | .map _ | .external _ | .union _ => none

/-- A type shows nothing but the values at its place: where there are none it is `mixed`,
and else it is the union of one member for each kind of values, in the order in which the
kinds are first seen. The objects among the values are the origin of the definition that is
named for them, and the element type of a list shows the items of all lists. -/
inductive Typed (origins : Origins) : List Document → TypeExpr → Prop
  | unknown : Typed origins [] (.scalar .mixed)
  | known {values : List Document} {type : TypeExpr} :
    values ≠ [] →
    type = .unionOf type.alternatives →
    type.alternatives.map memberKind? = (distinct (values.filterMap kindOf?)).map some →
    (∀ name, .definition name ∈ type.alternatives → (name, objectsOf values) ∈ origins) →
    (∀ item, .list item ∈ type.alternatives → Typed origins (itemsOf values) item) →
      Typed origins values type

/-- A declaration says of some samples which keys they have, at which of them some sample
holds null and at which every sample holds something else, and what stands there. -/
structure Describes (origins : Origins) (samples : List Sample) (d : Declaration) : Prop where
  keys : d.fields.names = distinct (samples.flatMap namesOf)
  nullable : ∀ f ∈ d.fields.toList,
    f.2.nullable = some true ↔ ∃ s ∈ samples, valueOf? f.1 s = some .null
  required : ∀ f ∈ d.fields.toList,
    f.2.required = some true ↔ ∀ s ∈ samples, ∃ v, valueOf? f.1 s = some v ∧ v ≠ .null
  type : ∀ f ∈ d.fields.toList, ∃ type : TypeExpr,
    f.2.type = type.text ∧ Typed origins (valuesAt samples f.1) type

/-- A definition comes from objects of a document. -/
structure ComesFrom (d : Document) (origins : Origins) (origin : String × List Sample)
    (definition : String × Declaration) : Prop where
  name : origin.1 = definition.1
  inhabited : origin.2 ≠ []
  parts : ∀ s ∈ origin.2, .object s ∈ d.parts
  describes : Describes origins origin.2 definition.2

/-! ## The kinds that members are there for -/

theorem isUnion_of_memberKind? {t : TypeExpr} {kind : ValueKind} (h : memberKind? t = some kind) :
    t.isUnion = false := by
  cases t with
  | union _ => cases h
  | _ => rfl

section Kinds

variable {types : List TypeExpr} {kinds : List ValueKind}
  (h : types.map memberKind? = kinds.map some)
include h

theorem exists_kind_of_member {t : TypeExpr} (ht : t ∈ types) :
    ∃ kind ∈ kinds, memberKind? t = some kind := by
  have hmem := List.mem_map_of_mem (f := memberKind?) ht
  rw [h] at hmem
  obtain ⟨kind, hkind, hsame⟩ := List.mem_map.mp hmem
  exact ⟨kind, hkind, hsame.symm⟩

theorem nodup_memberKinds (hkinds : kinds.Nodup) : (types.map memberKind?).Nodup := by
  rw [h]
  exact hkinds.map fun _ _ => Option.some.inj

end Kinds

/-! ## Further origins -/

variable {d : Document} {origins origins' : Origins}

theorem Typed.mono (hsub : origins ⊆ origins') {values : List Document} {type : TypeExpr}
    (h : Typed origins values type) : Typed origins' values type := by
  induction h with
  | unknown => exact .unknown
  | known hne htype hkinds hnames _ ih =>
    exact .known hne htype hkinds (fun name hm => hsub (hnames name hm)) ih

/-- Every value that stands somewhere has a member of its kind there. -/
theorem Typed.exists_member {values : List Document} {type : TypeExpr}
    (h : Typed origins values type) {v : Document} (hv : v ∈ values) {kind : ValueKind}
    (hkind : kindOf? v = some kind) :
    ∃ member ∈ type.alternatives, memberKind? member = some kind := by
  cases h with
  | unknown => cases hv
  | known _ _ hkinds _ _ =>
    have hmem : some kind ∈ (distinct (values.filterMap kindOf?)).map some :=
      List.mem_map_of_mem (mem_distinct.mpr (List.mem_filterMap.mpr ⟨v, hv, hkind⟩))
    rw [← hkinds] at hmem
    exact List.mem_map.mp hmem

theorem Typed.definition {values : List Document} {type : TypeExpr}
    (h : Typed origins values type) {name : String} (hname : .definition name ∈ type.alternatives) :
    (name, objectsOf values) ∈ origins := by
  cases h with
  | unknown => cases List.mem_singleton.mp hname
  | known _ _ _ hdefinitions _ => exact hdefinitions name hname

theorem Typed.item {values : List Document} {type : TypeExpr} (h : Typed origins values type)
    {item : TypeExpr} (hitem : .list item ∈ type.alternatives) :
    Typed origins (itemsOf values) item := by
  cases h with
  | unknown => cases List.mem_singleton.mp hitem
  | known _ _ _ _ hitems => exact hitems item hitem

/-- Types whose definitions come from somewhere are read as they were written. -/
theorem Typed.readable {origins : Origins}
    (hnames : ∀ origin ∈ origins, TypeExpr.isDefinitionName origin.1.toList)
    {values : List Document} {type : TypeExpr} (h : Typed origins values type) : type.Readable := by
  induction h with
  | unknown => exact .scalar .mixed
  | @known values type _ htype hkinds hdefinitions _ ih =>
    have hnodup := (nodup_memberKinds hkinds (nodup_distinct _)).of_map memberKind?
    rw [htype]
    refine TypeExpr.readable_unionOf (fun member hmember => ?_) (fun member hmember => ?_) hnodup
    all_goals
      obtain ⟨kind, -, hkind⟩ := exists_kind_of_member hkinds hmember
    · cases member with
      | scalar kind => exact .scalar kind
      | definition name => exact .definition (hnames _ (hdefinitions name hmember))
      | list item => exact .list (ih item hmember)
      | _ => cases hkind
    · exact isUnion_of_memberKind? hkind

/-- A type names only definitions that come from somewhere. -/
theorem Typed.references_subset {values : List Document} {type : TypeExpr}
    (h : Typed origins values type) : type.references ⊆ namesOf origins := by
  induction h with
  | unknown => exact List.nil_subset _
  | known _ _ hkinds hdefinitions _ ih =>
    intro name hname
    rw [TypeExpr.references_eq_flatMap, List.mem_flatMap] at hname
    obtain ⟨member, hmember, hname⟩ := hname
    obtain ⟨kind, -, hkind⟩ := exists_kind_of_member hkinds hmember
    cases member with
    | scalar _ => cases hname
    | definition _ =>
      cases List.mem_singleton.mp hname
      exact List.mem_map_of_mem (f := nameOf) (hdefinitions name hmember)
    | list item => exact ih item hmember hname
    | _ => cases hkind

theorem Typed.standsFor {values : List Document} {type : TypeExpr}
    (h : Typed origins values type) : StandsFor (namesOf origins) type.text type where
  written := rfl
  known := h.references_subset
  read hnames := by
    refine (h.readable fun origin horigin => ?_).read_text
    exact hnames origin.1 (List.mem_map_of_mem (f := nameOf) horigin)

theorem Describes.mono (hsub : origins ⊆ origins') {samples : List Sample} {decl : Declaration}
    (h : Describes origins samples decl) : Describes origins' samples decl where
  keys := h.keys
  nullable := h.nullable
  required := h.required
  type f hf := by
    obtain ⟨type, htext, htype⟩ := h.type f hf
    exact ⟨type, htext, htype.mono hsub⟩

theorem comesFrom_mono {part : Origins} {block : List (String × Declaration)}
    (hsub : origins ⊆ origins') (h : List.Forall₂ (ComesFrom d origins) part block) :
    List.Forall₂ (ComesFrom d origins') part block :=
  h.imp fun _ _ hcomes => ⟨hcomes.name, hcomes.inhabited, hcomes.parts, hcomes.describes.mono hsub⟩

/-- Each definition of a block comes from the origin that stands in its place, and this origin
consists of the objects that are unified into the definition. -/
structure Explains (d : Document) (named : String × List Sample → Prop) (origins : Origins)
    (block : List (String × Declaration)) : Prop where
  comesFrom : List.Forall₂ (ComesFrom d origins) origins block
  unified : ∀ origin ∈ origins, Unified block named origin

namespace Explains

variable {named named' : String × List Sample → Prop}

/-- Origins and definitions have the same names. -/
theorem namesOf_eq {block : List (String × Declaration)} (h : Explains d named origins block) :
    namesOf origins = namesOf block := by
  rw [← List.forall₂_eq_eq_eq, namesOf, namesOf, List.forall₂_map_left_iff,
    List.forall₂_map_right_iff]
  exact h.comesFrom.imp fun _ _ hcomes => hcomes.name

theorem nil : Explains d named [] [] := ⟨.nil, by simp⟩

theorem imp {block : List (String × Declaration)} (hnamed : ∀ origin, named origin → named' origin)
    (h : Explains d named origins block) : Explains d named' origins block :=
  ⟨h.comesFrom, fun origin horigin => (h.unified origin horigin).mono (List.Subset.refl _) hnamed⟩

theorem append {first others : List (String × Declaration)} (h : Explains d named origins first)
    (h' : Explains d named origins' others) :
    Explains d named (origins ++ origins') (first ++ others) where
  comesFrom := List.rel_append (comesFrom_mono (List.subset_append_left _ _) h.comesFrom)
    (comesFrom_mono (List.subset_append_right _ _) h'.comesFrom)
  unified := by
    refine List.forall_mem_append.mpr ⟨fun origin horigin => ?_, fun origin horigin => ?_⟩
    · exact (h.unified origin horigin).mono (List.subset_append_left _ _) fun _ => id
    · exact (h'.unified origin horigin).mono (List.subset_append_right _ _) fun _ => id

/-- A definition in front of those that its fields name. -/
theorem cons {name : String} {samples : List Sample} {decl : Declaration}
    {block : List (String × Declaration)}
    (h : Explains d (NamedIn (namesOf block) samples decl.fields.toList) origins block)
    (hne : samples ≠ []) (hparts : ∀ s ∈ samples, .object s ∈ d.parts)
    (hdescribes : Describes origins samples decl) (hnamed : named (name, samples)) :
    Explains d named ((name, samples) :: origins) ((name, decl) :: block) := by
  have hsub : origins ⊆ (name, samples) :: origins := List.subset_cons_self _ _
  have howner : Unified ((name, decl) :: block) named (name, samples) := .named hnamed
  refine ⟨.cons ⟨rfl, hne, hparts, hdescribes.mono hsub⟩ (comesFrom_mono hsub h.comesFrom), ?_⟩
  refine List.forall_mem_cons.mpr ⟨howner, fun origin horigin => ?_⟩
  exact howner.under List.mem_cons_self (List.subset_cons_self _ _) (h.unified origin horigin)

end Explains

/-! ## One kind of values after the other -/

/-- The members of a type for some kinds among the values at its place. -/
structure Members (origins : Origins) (values : List Document) (kinds : List ValueKind)
    (types : List TypeExpr) : Prop where
  kinds : types.map memberKind? = kinds.map some
  names : ∀ name, .definition name ∈ types → (name, objectsOf values) ∈ origins
  items : ∀ item, .list item ∈ types → Typed origins (itemsOf values) item

namespace Members

variable {values : List Document} {kinds kinds' : List ValueKind} {types types' : List TypeExpr}

theorem nil : Members origins values [] [] where
  kinds := rfl
  names _ h := by cases h
  items _ h := by cases h

theorem append (h : Members origins values kinds types)
    (h' : Members origins' values kinds' types') :
    Members (origins ++ origins') values (kinds ++ kinds') (types ++ types') where
  kinds := by rw [List.map_append, List.map_append, h.kinds, h'.kinds]
  names name hm := by
    rcases List.mem_append.mp hm with hm | hm
    · exact List.mem_append_left _ (h.names name hm)
    · exact List.mem_append_right _ (h'.names name hm)
  items item hm := by
    rcases List.mem_append.mp hm with hm | hm
    · exact (h.items item hm).mono (List.subset_append_left _ _)
    · exact (h'.items item hm).mono (List.subset_append_right _ _)

theorem isUnion_eq_false (h : Members origins values kinds types) :
    ∀ t ∈ types, t.isUnion = false := by
  intro t ht
  obtain ⟨_, -, hkind⟩ := exists_kind_of_member h.kinds ht
  exact isUnion_of_memberKind? hkind

theorem nodup (h : Members origins values kinds types) (hkinds : kinds.Nodup) : types.Nodup :=
  (nodup_memberKinds h.kinds hkinds).of_map memberKind?

theorem alternatives_unionOf (h : Members origins values kinds types) (hkinds : kinds.Nodup)
    (hne : types ≠ []) : (TypeExpr.unionOf types).alternatives = types :=
  TypeExpr.alternatives_unionOf hne (h.nodup hkinds) h.isUnion_eq_false

/-- Members for all kinds of values are joined to the type. -/
theorem typed (h : Members origins values (distinct (values.filterMap kindOf?)) types)
    (hvalues : ∀ v ∈ values, v ≠ .null) : Typed origins values (.unionOf types) := by
  cases values with
  | nil =>
    have hnil : types = [] := List.map_eq_nil_iff.mp h.kinds
    rw [hnil]
    exact .unknown
  | cons v rest =>
    have hne : types ≠ [] := by
      rintro rfl
      obtain ⟨kind, hkind⟩ := exists_kindOf? (hvalues v List.mem_cons_self)
      have hm : kind ∈ distinct ((v :: rest).filterMap kindOf?) :=
        mem_distinct.mpr (List.mem_filterMap.mpr ⟨v, List.mem_cons_self, hkind⟩)
      rw [List.map_eq_nil_iff.mp h.kinds.symm] at hm
      cases hm
    have hmembers := h.alternatives_unionOf (nodup_distinct _) hne
    refine .known (List.cons_ne_nil _ _) (by rw [hmembers]) ?_ ?_ ?_
    · rw [hmembers]
      exact h.kinds
    · rw [hmembers]
      exact h.names
    · rw [hmembers]
      exact h.items

end Members

/-- What the values of one kind show. -/
def evidenceFor (depth : Nat) (values : List Document) : ValueKind → Evidence
  | .scalar kind => .scalar kind
  | .object => .object (fieldsOf (evidenceOf depth) (objectsOf values))
  | .list => .list (evidenceOf depth (itemsOf values))

theorem evidenceOf_succ (depth : Nat) (values : List Document) :
    evidenceOf (depth + 1) values =
      (distinct (values.filterMap kindOf?)).map (evidenceFor depth values) := by
  rw [evidenceOf]
  refine List.map_congr_left fun kind _ => ?_
  cases kind <;> rfl

/-- What samples show of the field under a key. -/
def labelFor (samples : List Sample) (key : String) : FieldLabel where
  name := key
  nullable := (samples.filterMap (valueOf? key)).any Document.isNull
  required := (valuesAt samples key).length = samples.length

theorem labelFor_nullable {samples : List Sample} {key : String} :
    (labelFor samples key).nullable ↔ ∃ s ∈ samples, valueOf? key s = some .null := by
  simp only [labelFor, List.any_eq_true, List.mem_filterMap, Document.isNull_iff]
  constructor
  · rintro ⟨_, ⟨s, hs, hvalue⟩, rfl⟩
    exact ⟨s, hs, hvalue⟩
  · rintro ⟨s, hs, hvalue⟩
    exact ⟨_, ⟨s, hs, hvalue⟩, rfl⟩

theorem labelFor_required {samples : List Sample} {key : String} :
    (labelFor samples key).required ↔
      ∀ s ∈ samples, ∃ v, valueOf? key s = some v ∧ v ≠ .null := by
  rw [← length_valuesAt_eq_iff, labelFor, decide_eq_true_iff]

/-- There is a declaration for each key, and it says what stands at the key. -/
structure DeclaresKeys (origins : Origins) (samples : List Sample) (keys : List String)
    (fields : List (String × FieldDeclaration)) : Prop where
  names : namesOf fields = keys
  declared : ∀ f ∈ fields, ∃ type,
    f = declared (labelFor samples f.1) type ∧ Typed origins (valuesAt samples f.1) type

namespace DeclaresKeys

variable {samples : List Sample} {keys : List String} {fields : List (String × FieldDeclaration)}

theorem mono (hsub : origins ⊆ origins') (h : DeclaresKeys origins samples keys fields) :
    DeclaresKeys origins' samples keys fields where
  names := h.names
  declared f hf := by
    obtain ⟨type, hlabel, htype⟩ := h.declared f hf
    exact ⟨type, hlabel, htype.mono hsub⟩

theorem cons {key : String} {type : TypeExpr} (htype : Typed origins (valuesAt samples key) type)
    (h : DeclaresKeys origins' samples keys fields) :
    DeclaresKeys (origins ++ origins') samples (key :: keys)
      (Inference.declared (labelFor samples key) type :: fields) where
  names := congrArg (key :: ·) h.names
  declared := by
    refine List.forall_mem_cons.mpr ⟨?_, (h.mono (List.subset_append_right _ _)).declared⟩
    exact ⟨type, rfl, htype.mono (List.subset_append_left _ _)⟩

theorem toList (h : DeclaresKeys origins samples keys fields) (hkeys : keys.Nodup) :
    (declarationOf fields).fields.toList = fields :=
  Catalogue.toList_ofList (h.names ▸ hkeys)

theorem describes (h : DeclaresKeys origins samples (distinct (samples.flatMap namesOf)) fields) :
    Describes origins samples (declarationOf fields) := by
  have hlist := h.toList (nodup_distinct _)
  have hmark (b : Bool) : (if b then some true else none) = some true ↔ b = true := by
    cases b <;> simp
  constructor
  · rw [Catalogue.names, hlist, h.names]
  all_goals
    rw [hlist]
    intro f hf
    obtain ⟨type, hlabel, htype⟩ := h.declared f hf
  · rw [← labelFor_nullable, ← hmark, hlabel]
    rfl
  · rw [← labelFor_required, ← hmark, hlabel]
    rfl
  · refine ⟨type, ?_, htype⟩
    rw [hlabel]
    rfl

end DeclaresKeys

/-! ## The whole document -/

variable {o : ImportOptions} {depth : Nat}

/-- Whatever is found up to a depth has a type, and origins for what comes with it. -/
def ExplainedTo (d : Document) (o : ImportOptions) (depth : Nat) : Prop :=
  ∀ values types block, Found d depth values → KindsListed o (evidenceOf depth values) types block →
    ∃ origins, Explains d (NamedAt values (.unionOf types)) origins block ∧
      Typed origins values (.unionOf types)

theorem exists_origins_of_fields (hdepth : ExplainedTo d o depth) {samples : List Sample}
    (hsamples : FoundSamples d (depth + 1) samples) (keys : List String)
    {fields : List (String × FieldDeclaration)} {block : List (String × Declaration)}
    (h : FieldsListed o
      (keys.map fun key => (labelFor samples key, evidenceOf depth (valuesAt samples key)))
      fields block) :
    ∃ origins, Explains d (NamedIn (namesOf block) samples fields) origins block ∧
      DeclaresKeys origins samples keys fields := by
  induction keys generalizing fields block with
  | nil =>
    cases h
    exact ⟨[], .nil, rfl, by simp⟩
  | cons key keys ih =>
    rw [List.map_cons] at h
    cases h with
    | @cons _ _ types _ rest inner block htypes hrest =>
      obtain ⟨first, hfirst, htype⟩ := hdepth _ _ _ (hsamples.valuesAt key) htypes
      obtain ⟨others, hothers, hkeys⟩ := ih hrest
      let names := namesOf (inner ++ block)
      have hinner : namesOf first ⊆ names :=
        hfirst.namesOf_eq ▸ List.map_subset _ (List.subset_append_left inner block)
      have hblock : namesOf block ⊆ names :=
        List.map_subset _ (List.subset_append_right inner block)
      let field := declared (labelFor samples key) (.unionOf types)
      have hfield : Explains d (NamedIn names samples (field :: rest)) first _ :=
        hfirst.imp fun _ hnamed =>
          ⟨field, List.mem_cons_self, .unionOf types, htype.standsFor.mono hinner, hnamed⟩
      have hfields : Explains d (NamedIn names samples (field :: rest)) others _ :=
        hothers.imp fun _ hnamed => hnamed.mono hblock (List.subset_cons_self _ _)
      exact ⟨first ++ others, hfield.append hfields, .cons htype hkeys⟩

/-- The objects at a place have a definition, and what its fields name comes with it. -/
theorem exists_origins_of_samples (hdepth : ExplainedTo d o depth) {samples : List Sample}
    (hsamples : FoundSamples d (depth + 1) samples) (hne : samples ≠ []) {name : String}
    {fields : List (String × FieldDeclaration)} {block : List (String × Declaration)}
    (h : FieldsListed o (fieldsOf (evidenceOf depth) samples) fields block)
    (named : String × List Sample → Prop) (hnamed : named (name, samples)) :
    ∃ origins, Explains d named ((name, samples) :: origins)
      ((name, declarationOf fields) :: block) := by
  obtain ⟨origins, hexplains, hkeys⟩ := exists_origins_of_fields hdepth hsamples _ h
  rw [← hkeys.toList (nodup_distinct _)] at hexplains
  exact ⟨origins, hexplains.cons hne (fun s hs => (hsamples s hs).1) hkeys.describes hnamed⟩

theorem exists_origins_of_kind (hdepth : ExplainedTo d o depth) {values : List Document}
    (hvalues : Found d (depth + 1) values) {kind : ValueKind}
    (hkind : ∃ v ∈ values, kindOf? v = some kind) {type : TypeExpr}
    {block : List (String × Declaration)}
    (h : KindListed o (evidenceFor depth values kind) type block) :
    ∃ origins, Explains d (NamedBy values [type]) origins block ∧
      Members origins values [kind] [type] := by
  cases kind with
  | scalar kind =>
    cases h
    exact ⟨[], .nil, rfl, by simp, by simp⟩
  | object =>
    cases h with
    | @object _ name declared inner _ hfields =>
      have hne : objectsOf values ≠ [] := by
        obtain ⟨v, hv, hvkind⟩ := hkind
        obtain ⟨s, rfl⟩ := exists_object_of_kindOf? hvkind
        exact List.ne_nil_of_mem (mem_objectsOf.mpr hv)
      have hnamed : NamedBy values [.definition name] (name, objectsOf values) :=
        Or.inl ⟨List.mem_cons_self, rfl⟩
      obtain ⟨origins, hexplains⟩ :=
        exists_origins_of_samples hdepth hvalues.objectsOf hne hfields _ hnamed
      refine ⟨(name, objectsOf values) :: origins, hexplains, rfl, ?_, by simp⟩
      simp
  | list =>
    cases h with
    | @list _ types _ hitems =>
      obtain ⟨origins, hexplains, htype⟩ := hdepth _ _ _ hvalues.itemsOf hitems
      refine ⟨origins, hexplains.imp fun _ hnamed => ?_, rfl, by simp, ?_⟩
      · exact Or.inr ⟨_, List.mem_cons_self, hnamed⟩
      · simpa using htype

theorem exists_origins_of_kinds (hdepth : ExplainedTo d o depth) {values : List Document}
    (hvalues : Found d (depth + 1) values) (kinds : List ValueKind)
    (hkinds : ∀ kind ∈ kinds, ∃ v ∈ values, kindOf? v = some kind) {types : List TypeExpr}
    {block : List (String × Declaration)}
    (h : KindsListed o (kinds.map (evidenceFor depth values)) types block) :
    ∃ origins, Explains d (NamedBy values types) origins block ∧
      Members origins values kinds types := by
  induction kinds generalizing types block with
  | nil =>
    cases h
    exact ⟨[], .nil, .nil⟩
  | cons kind kinds ih =>
    rw [List.map_cons] at h
    obtain ⟨hkind, hkinds⟩ := List.forall_mem_cons.mp hkinds
    cases h with
    | @cons _ _ type types _ _ htype hrest =>
      obtain ⟨first, hfirst, hmember⟩ := exists_origins_of_kind hdepth hvalues hkind htype
      obtain ⟨others, hothers, hmembers⟩ := ih hkinds hrest
      have hfirst := hfirst.imp fun _ hnamed =>
        hnamed.mono (List.subset_append_left [type] types)
      have hothers := hothers.imp fun _ hnamed =>
        hnamed.mono (List.subset_append_right [type] types)
      exact ⟨first ++ others, hfirst.append hothers, hmember.append hmembers⟩

theorem explainedTo (d : Document) (o : ImportOptions) (depth : Nat) : ExplainedTo d o depth := by
  induction depth with
  | zero =>
    intro values types block hvalues h
    rw [hvalues.eq_nil]
    cases h
    exact ⟨[], .nil, .unknown⟩
  | succ depth ih =>
    intro values types block hvalues h
    rw [evidenceOf_succ] at h
    obtain ⟨origins, hexplains, hmembers⟩ :=
      exists_origins_of_kinds ih hvalues _ (fun kind hkind => by
        obtain ⟨v, hv, hvkind⟩ := List.mem_filterMap.mp (mem_distinct.mp hkind)
        exact ⟨v, hv, hvkind⟩) h
    refine ⟨origins, hexplains.imp fun origin hnamed => ?_,
      hmembers.typed fun v hv => (hvalues v hv).1⟩
    have hne : types ≠ [] := by
      rintro rfl
      rcases hnamed with ⟨hname, -⟩ | ⟨_, hitem, -⟩
      · cases hname
      · cases hitem
    rw [← hmembers.alternatives_unionOf (nodup_distinct _) hne] at hnamed
    exact hnamed.namedAt

/-- Definitions are inferred from exactly the documents that hold samples. -/
theorem exists_infer_iff :
    (∃ result, infer o d = .ok result) ↔ ∃ samples, HoldsSamples d samples := by
  constructor
  · rintro ⟨result, h⟩
    obtain ⟨samples, hsamples, -⟩ := bind_eq_ok_iff.mp h
    exact ⟨samples, holdsSamples_of_samplesOf hsamples⟩
  · rintro ⟨samples, h⟩
    exact ⟨_, bind_eq_ok_iff.mpr ⟨samples, samplesOf_of_holdsSamples h, rfl⟩⟩

/-- Each inferred definition comes from a list of objects in the document: the first one from
the samples, and every other one from the objects at a place where it is named. -/
theorem exists_origins_of_infer {result : ImportResult} (h : infer o d = .ok result) :
    ∃ samples origins, HoldsSamples d samples ∧
      Explains d (· = (o.qualified (Naming.typeName o.rootName "Root"), samples))
        ((o.qualified (Naming.typeName o.rootName "Root"), samples) :: origins)
        result.definitions.toList := by
  obtain ⟨samples, fields, block, hsamples, hfields, hlist⟩ := exists_listed_of_infer h
  have hsamples := holdsSamples_of_samplesOf hsamples
  have hfound : FoundSamples d (depthOfItems (samples.map .object) + 1) samples := by
    intro s hs
    have hdepth := depthOf_le_depthOfItems (List.mem_map_of_mem (f := Document.object) hs)
    exact ⟨hsamples.mem_parts hs, by omega⟩
  rw [hlist]
  obtain ⟨origins, hexplains⟩ :=
    exists_origins_of_samples (explainedTo d o _) hfound hsamples.ne_nil hfields
      (· = (o.qualified (Naming.typeName o.rootName "Root"), samples)) rfl
  exact ⟨samples, origins, hsamples, hexplains⟩

/-- Two invoices: their lines are objects and texts, one number is a text, and what stands at
`paid` is null. -/
def invoices : Document :=
  .array
    [.object [("number", .number (.integer 17)), ("paid", .null),
      ("lines", .array [.object [("sku", .string "A-1"), ("count", .number (.integer 2))], .null])],
    .object [("number", .string "18/b"),
      ("lines", .array [.string "gift", .object [("sku", .string "B-7"), ("sizes", .array [])]])]]

def invoiceOptions : ImportOptions :=
  { ImportOptions.usual with namespaceName := some "Shop.Sales", rootName := "invoice" }

example : (infer invoiceOptions invoices).toOption.map (fun result =>
    result.definitions.toList.map fun (name, declaration) =>
      (name, declaration.fields.toList.map fun (key, field) => (key, field.type))) =
    some
      [("Shop.Sales.Invoice", [("number", "int|string"), ("paid", "mixed"),
        ("lines", "array<int, Shop.Sales.Line|string>")]),
      ("Shop.Sales.Line", [("sku", "string"), ("count", "int"), ("sizes", "mixed[]")])] := by
  rfl

end RecordDefinitions.Inference
