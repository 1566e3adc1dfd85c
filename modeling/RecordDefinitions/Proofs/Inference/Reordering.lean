import RecordDefinitions.Proofs.Inference.Correspondence
import RecordDefinitions.Proofs.Inference.Repeats

/-!
# Samples in another order

The order of samples decides in which order kinds and keys are first seen, and with it the order of
definitions and which of them get numbers. Nothing else depends on it: at every place the same kinds
and keys are found, in some order, so the definitions are paired place by place, and as many lists
without items are warned of.
-/

namespace RecordDefinitions.Inference

variable {o : ImportOptions} {depth : Nat}

/-! ## What values and samples show -/

section Orders

variable {values values' : List Document} {samples samples' : List Sample}

theorem objectsOf_perm (h : values.Perm values') : (objectsOf values).Perm (objectsOf values') :=
  h.filterMap _

theorem itemsOf_perm (h : values.Perm values') : (itemsOf values).Perm (itemsOf values') :=
  (h.filterMap _).flatten.filter _

theorem valuesAt_perm (h : samples.Perm samples') (key : String) :
    (valuesAt samples key).Perm (valuesAt samples' key) :=
  (h.filterMap _).filter _

theorem labelFor_perm (h : samples.Perm samples') (key : String) :
    labelFor samples key = labelFor samples' key := by
  rw [labelFor, labelFor, (h.filterMap _).any_eq, (valuesAt_perm h key).length_eq, h.length_eq]

theorem kinds_perm (h : values.Perm values') :
    (distinct (values.filterMap kindOf?)).Perm (distinct (values'.filterMap kindOf?)) :=
  distinct_perm (h.filterMap _)

theorem keys_perm (h : samples.Perm samples') :
    (distinct (samples.flatMap namesOf)).Perm (distinct (samples'.flatMap namesOf)) :=
  distinct_perm (h.flatMap_right _)

end Orders

/-! ## Kinds and fields with their definitions -/

/-- The types of kinds, each with its definitions. -/
theorem KindsListed.exists_entries {kinds : List Evidence} {types : List TypeExpr}
    {block : List (String × Declaration)} (h : KindsListed o kinds types block) :
    ∃ entries : List (TypeExpr × List (String × Declaration)),
      List.Forall₂ (fun kind entry => KindListed o kind entry.1 entry.2) kinds entries ∧
        entries.map Prod.fst = types ∧ entries.flatMap Prod.snd = block := by
  induction kinds generalizing types block with
  | nil =>
    cases h
    exact ⟨[], .nil, rfl, rfl⟩
  | cons kind kinds ih =>
    cases h with
    | @cons _ _ type _ first _ hkind hkinds =>
      obtain ⟨entries, hentries, rfl, rfl⟩ := ih hkinds
      exact ⟨(type, first) :: entries, .cons hkind hentries, rfl, rfl⟩

/-- The declarations of fields, each with the definitions for its type. -/
theorem FieldsListed.exists_entries {fields : List (FieldLabel × List Evidence)}
    {declarations : List (String × FieldDeclaration)} {block : List (String × Declaration)}
    (h : FieldsListed o fields declarations block) :
    ∃ entries : List ((String × FieldDeclaration) × List (String × Declaration)),
      List.Forall₂ (fun f entry => ∃ types, KindsListed o f.2 types entry.2 ∧
          entry.1 = declared f.1 (.unionOf types)) fields entries ∧
        entries.map Prod.fst = declarations ∧ entries.flatMap Prod.snd = block := by
  induction fields generalizing declarations block with
  | nil =>
    cases h
    exact ⟨[], .nil, rfl, rfl⟩
  | cons f fields ih =>
    cases h with
    | @cons label _ types _ _ first _ htypes hfields =>
      obtain ⟨entries, hentries, rfl, rfl⟩ := ih hfields
      exact ⟨(declared label (.unionOf types), first) :: entries, .cons ⟨types, htypes, rfl⟩ hentries,
        rfl, rfl⟩

/-- The declarations of fields have their names. -/
theorem FieldsListed.namesOf_eq {fields : List (FieldLabel × List Evidence)}
    {declarations : List (String × FieldDeclaration)} {block : List (String × Declaration)}
    (h : FieldsListed o fields declarations block) :
    namesOf declarations = fields.map fun f => f.1.name := by
  induction fields generalizing declarations block with
  | nil =>
    cases h
    rfl
  | cons f fields ih =>
    cases h with
    | @cons label _ _ _ _ _ _ _ hfields => exact congrArg (label.name :: ·) (ih hfields)

theorem fieldsOf_evidenceOf (depth : Nat) (samples : List Sample) :
    fieldsOf (evidenceOf depth) samples = (distinct (samples.flatMap namesOf)).map fun key =>
      (labelFor samples key, evidenceOf depth (valuesAt samples key)) :=
  rfl

theorem FieldsListed.nodup {samples : List Sample} {declarations : List (String × FieldDeclaration)}
    {block : List (String × Declaration)}
    (h : FieldsListed o (fieldsOf (evidenceOf depth) samples) declarations block) :
    (namesOf declarations).Nodup := by
  rw [h.namesOf_eq, fieldsOf_evidenceOf, List.map_map]
  exact (List.map_id _).symm ▸ nodup_distinct _

/-- Each kind of values has a type of its own. -/
theorem KindsListed.map_memberKind? {values : List Document} {kinds : List ValueKind}
    {types : List TypeExpr} {block : List (String × Declaration)}
    (h : KindsListed o (kinds.map (evidenceFor depth values)) types block) :
    types.map memberKind? = kinds.map some := by
  induction kinds generalizing types block with
  | nil =>
    cases h
    rfl
  | cons kind kinds ih =>
    cases h with
    | @cons _ _ type _ _ _ hkind hkinds =>
      have hfirst : memberKind? type = some kind := by
        cases kind <;> cases hkind <;> rfl
      rw [List.map_cons, List.map_cons, hfirst, ih hkinds]

/-! ## Definitions place by place -/

/-- Values in two orders have corresponding types, and the definitions that come with them are
paired. -/
def MatchesTo (o : ImportOptions) (depth : Nat) : Prop :=
  ∀ values values' types types' block block', values.Perm values' →
    KindsListed o (evidenceOf depth values) types block →
    KindsListed o (evidenceOf depth values') types' block' →
      Matches TypeExpr.Corresponds (.unionOf types) (.unionOf types') block block'

section Places

variable {block block' : List (String × Declaration)}

theorem matches_fields (hdepth : MatchesTo o depth) {samples samples' : List Sample}
    (hperm : samples.Perm samples') {declarations declarations' : List (String × FieldDeclaration)}
    (h : FieldsListed o (fieldsOf (evidenceOf depth) samples) declarations block)
    (h' : FieldsListed o (fieldsOf (evidenceOf depth) samples') declarations' block') :
    Matches (fun R => RelatedInSomeOrder (FieldDeclaration.Corresponds R)) declarations declarations'
      block block' := by
  rw [fieldsOf_evidenceOf] at h h'
  obtain ⟨entries, hentries, rfl, rfl⟩ := h.exists_entries
  obtain ⟨entries', hentries', rfl, rfl⟩ := h'.exists_entries
  refine .of_perm (keys_perm hperm) (List.forall₂_map_left_iff.mp hentries)
    (List.forall₂_map_left_iff.mp hentries') ?_
  rintro key - ⟨-, first⟩ ⟨-, first'⟩ ⟨types, htypes, rfl⟩ ⟨types', htypes', rfl⟩
  refine (hdepth _ _ _ _ _ _ (valuesAt_perm hperm key) htypes htypes').imp fun R htype => ?_
  refine ⟨rfl, ?_, .unionOf types, .unionOf types', rfl, rfl, htype⟩
  rw [labelFor_perm hperm key]
  rfl

theorem matches_kind (hdepth : MatchesTo o depth) {values values' : List Document}
    (hperm : values.Perm values') (kind : ValueKind) {type type' : TypeExpr}
    (h : KindListed o (evidenceFor depth values kind) type block)
    (h' : KindListed o (evidenceFor depth values' kind) type' block') :
    Matches TypeExpr.Corresponds type type' block block' := by
  cases kind with
  | scalar kind =>
    cases h
    cases h'
    exact .nil fun _ => .scalar kind
  | object =>
    cases h with
    | object _ hfields =>
      cases h' with
      | object _ hfields' =>
        have hmatches := matches_fields hdepth (objectsOf_perm hperm) hfields hfields'
        exact (hmatches.define hfields.nodup hfields'.nodup).imp fun _ hnames => .definition hnames
  | list =>
    cases h with
    | list hitems =>
      cases h' with
      | list hitems' =>
        exact (hdepth _ _ _ _ _ _ (itemsOf_perm hperm) hitems hitems').imp fun _ hitem => .list hitem

theorem matchesTo (o : ImportOptions) (depth : Nat) : MatchesTo o depth := by
  induction depth with
  | zero =>
    intro values values' types types' block block' _ h h'
    cases h
    cases h'
    exact .nil fun _ => .scalar .mixed
  | succ depth ih =>
    intro values values' types types' block block' hperm h h'
    rw [evidenceOf_succ] at h h'
    have hkinds := h.map_memberKind?
    have hkinds' := h'.map_memberKind?
    obtain ⟨entries, hentries, rfl, rfl⟩ := h.exists_entries
    obtain ⟨entries', hentries', rfl, rfl⟩ := h'.exists_entries
    have hmatches := Matches.of_perm (kinds_perm hperm) (List.forall₂_map_left_iff.mp hentries)
      (List.forall₂_map_left_iff.mp hentries') fun kind _ _ _ hentry hentry' =>
        matches_kind ih hperm kind hentry hentry'
    have hsingle {kinds : List ValueKind} {types : List TypeExpr}
        (h : types.map memberKind? = kinds.map some) : ∀ t ∈ types, t.isUnion = false := by
      intro t ht
      obtain ⟨_, -, hkind⟩ := exists_kind_of_member h ht
      exact isUnion_of_memberKind? hkind
    refine hmatches.imp fun R hrelated => ?_
    exact TypeExpr.corresponds_unionOf hrelated
      ((nodup_memberKinds hkinds (nodup_distinct _)).of_map memberKind?) (hsingle hkinds)
      ((nodup_memberKinds hkinds' (nodup_distinct _)).of_map memberKind?) (hsingle hkinds')

end Places

/-! ## Warnings -/

mutual

/-- How many lists without items some evidence shows. -/
def Evidence.unknowns : Evidence → Nat
  | .scalar _ => 0
  | .object fields => unknownsOfFields fields
  | .list items => if items.isEmpty then 1 else unknownsOfKinds items

def unknownsOfKinds : List Evidence → Nat
  | [] => 0
  | kind :: kinds => kind.unknowns + unknownsOfKinds kinds

def unknownsOfFields : List (FieldLabel × List Evidence) → Nat
  | [] => 0
  | (_, evidence) :: rest => unknownsOfKinds evidence + unknownsOfFields rest

end

/-- A computation adds a number of warnings. -/
def Warns {α : Type} (x : Infer α) (number : Nat) : Prop :=
  ∀ i : Inferred, (x.run i).2.warnings.length = i.warnings.length + number

namespace Warns

variable {α β : Type} {x : Infer α} {f : α → Infer β} {number more : Nat}

theorem pure (a : α) : Warns (Pure.pure a) 0 := fun _ => rfl

theorem bind (hx : Warns x number) (hf : ∀ a, Warns (f a) more) :
    Warns (x >>= f) (number + more) := by
  intro i
  rw [← Nat.add_assoc, ← hx i]
  exact hf (x.run i).1 (x.run i).2

theorem unknownItems (owner field : String) : Warns (unknownItems owner field) 1 := by
  intro i
  exact List.length_append

end Warns

mutual

theorem warns_nameFields (owner : String) : (fields : List (FieldLabel × List Evidence)) →
    Warns (nameFields o owner fields) (unknownsOfFields fields)
  | [] => .pure _
  | (label, evidence) :: rest => by
    rw [nameFields, unknownsOfFields]
    refine (warns_nameKinds owner _ _ evidence).bind fun types => ?_
    exact (warns_nameFields owner rest).bind fun _ => .pure _

theorem warns_nameKinds (owner field hint : String) : (kinds : List Evidence) →
    Warns (nameKinds o owner field hint kinds) (unknownsOfKinds kinds)
  | [] => .pure _
  | kind :: rest => by
    rw [nameKinds, unknownsOfKinds]
    refine (warns_nameKind owner field hint kind).bind fun type => ?_
    exact (warns_nameKinds owner field hint rest).bind fun _ => .pure _

theorem warns_nameKind (owner field hint : String) : (kind : Evidence) →
    Warns (nameKind o owner field hint kind) kind.unknowns
  | .scalar kind => by
    rw [nameKind, Evidence.unknowns]
    exact .pure _
  | .object fields => by
    rw [nameKind, Evidence.unknowns]
    exact fun _ => warns_nameFields _ fields _
  | .list items => by
    rw [nameKind, Evidence.unknowns]
    split
    · exact .unknownItems owner field
    · exact (warns_nameKinds owner field _ items).bind fun _ => .pure _

end

/-- Reserving a name and defining it are no reasons to warn. -/
theorem warns_nameRoot (fields : List (FieldLabel × List Evidence)) :
    Warns (nameRoot o fields) (unknownsOfFields fields) :=
  fun _ => warns_nameFields (o := o) _ fields _

theorem length_warnings_of_infer {d : Document} {samples : List Sample} {result : ImportResult}
    (hsamples : samplesOf d = .ok samples) (h : infer o d = .ok result) :
    result.warnings.length = unknownsOfFields (summary samples) := by
  obtain ⟨samples', hsamples', hresult⟩ := bind_eq_ok_iff.mp h
  obtain rfl := Except.ok.inj (hsamples'.symm.trans hsamples)
  cases hresult
  exact (warns_nameRoot (summary samples') .empty).trans (Nat.zero_add _)

theorem unknownsOfKinds_perm {kinds kinds' : List Evidence} (h : kinds.Perm kinds') :
    unknownsOfKinds kinds = unknownsOfKinds kinds' := by
  induction h with
  | nil => rfl
  | cons kind _ ih => rw [unknownsOfKinds, unknownsOfKinds, ih]
  | swap first second kinds =>
    simp only [unknownsOfKinds]
    omega
  | trans _ _ ih ih' => exact ih.trans ih'

theorem unknownsOfFields_perm {fields fields' : List (FieldLabel × List Evidence)}
    (h : fields.Perm fields') : unknownsOfFields fields = unknownsOfFields fields' := by
  induction h with
  | nil => rfl
  | cons f _ ih => rw [unknownsOfFields, unknownsOfFields, ih]
  | swap first second fields =>
    simp only [unknownsOfFields]
    omega
  | trans _ _ ih ih' => exact ih.trans ih'

theorem unknownsOfKinds_map_congr {κ : Type} {keys : List κ} {evidence evidence' : κ → Evidence}
    (h : ∀ key ∈ keys, (evidence key).unknowns = (evidence' key).unknowns) :
    unknownsOfKinds (keys.map evidence) = unknownsOfKinds (keys.map evidence') := by
  induction keys with
  | nil => rfl
  | cons key keys ih =>
    obtain ⟨hkey, hkeys⟩ := List.forall_mem_cons.mp h
    rw [List.map_cons, List.map_cons, unknownsOfKinds, unknownsOfKinds, hkey, ih hkeys]

theorem unknownsOfFields_map_congr {κ : Type} {keys : List κ}
    {field field' : κ → FieldLabel × List Evidence}
    (h : ∀ key ∈ keys, unknownsOfKinds (field key).2 = unknownsOfKinds (field' key).2) :
    unknownsOfFields (keys.map field) = unknownsOfFields (keys.map field') := by
  induction keys with
  | nil => rfl
  | cons key keys ih =>
    obtain ⟨hkey, hkeys⟩ := List.forall_mem_cons.mp h
    rw [List.map_cons, List.map_cons, unknownsOfFields, unknownsOfFields, hkey, ih hkeys]

theorem unknownsOfFields_fieldsOf_perm {evidence : List Document → List Evidence}
    (hevidence : ∀ values values' : List Document, values.Perm values' →
      unknownsOfKinds (evidence values) = unknownsOfKinds (evidence values'))
    {samples samples' : List Sample} (h : samples.Perm samples') :
    unknownsOfFields (fieldsOf evidence samples) = unknownsOfFields (fieldsOf evidence samples') := by
  rw [fieldsOf, fieldsOf, unknownsOfFields_perm ((keys_perm h).map _)]
  exact unknownsOfFields_map_congr fun key _ => hevidence _ _ (valuesAt_perm h key)

theorem length_evidenceOf_perm (depth : Nat) {values values' : List Document}
    (h : values.Perm values') :
    (evidenceOf depth values).length = (evidenceOf depth values').length := by
  cases depth with
  | zero => rfl
  | succ depth =>
    rw [evidenceOf_succ, evidenceOf_succ, List.length_map, List.length_map, (kinds_perm h).length_eq]

/-- As many lists without items are found in every order. -/
theorem unknownsOfKinds_evidenceOf_perm (depth : Nat) (values values' : List Document)
    (h : values.Perm values') :
    unknownsOfKinds (evidenceOf depth values) = unknownsOfKinds (evidenceOf depth values') := by
  induction depth generalizing values values' with
  | zero => rfl
  | succ depth ih =>
    rw [evidenceOf_succ, evidenceOf_succ, unknownsOfKinds_perm ((kinds_perm h).map _)]
    refine unknownsOfKinds_map_congr fun kind _ => ?_
    cases kind with
    | scalar kind => rfl
    | object => exact unknownsOfFields_fieldsOf_perm ih (objectsOf_perm h)
    | list =>
      have hlength := length_evidenceOf_perm depth (itemsOf_perm h)
      have hempty : (evidenceOf depth (itemsOf values)).isEmpty =
          (evidenceOf depth (itemsOf values')).isEmpty := by
        rw [Bool.eq_iff_iff, List.isEmpty_iff_length_eq_zero, List.isEmpty_iff_length_eq_zero, hlength]
      simp only [evidenceFor, Evidence.unknowns, hempty, ih _ _ (itemsOf_perm h)]

/-! ## Samples of a document -/

theorem depthOfItems_perm {items items' : List Document} (h : items.Perm items') :
    depthOfItems items = depthOfItems items' := by
  apply Nat.le_antisymm
  · exact depthOfItems_le_of_subset h.subset
  · exact depthOfItems_le_of_subset h.symm.subset

/-- Items in another order are samples in another order. -/
theorem exists_samples_of_perm {samples : List Sample} {items' : List Document}
    (h : (samples.map Document.object).Perm items') :
    ∃ samples', samples.Perm samples' ∧ items' = samples'.map .object := by
  obtain ⟨samples', -, rfl⟩ := exists_samples_of_subset h.symm.subset
  exact ⟨samples', (List.map_perm_map_iff fun _ _ => Document.object.inj).mp h, rfl⟩

/-- Definitions are inferred from the items in every order. They are the same up to their names, the
order of their fields and the order of the members of unions; the definition for the samples stays
in front, and there are as many warnings. -/
theorem infer_perm {o : ImportOptions} {items items' : List Document} {result : ImportResult}
    (h : infer o (.array items) = .ok result) (hperm : items.Perm items') :
    ∃ result' σ, infer o (.array items') = .ok result' ∧
      Declarations.Renamed σ result.definitions result'.definitions ∧
      result'.definitions.names.head? = result.definitions.names.head?.map σ ∧
      result'.warnings.length = result.warnings.length := by
  obtain ⟨samples, declarations, block, hsamples, hfields, hlist⟩ := exists_listed_of_infer h
  cases holdsSamples_of_samplesOf hsamples with
  | list hne =>
    obtain ⟨samples', hsame, rfl⟩ := exists_samples_of_perm hperm
    have hne' : samples' ≠ [] := fun hnil => hne (List.perm_nil.mp (hnil ▸ hsame))
    obtain ⟨result', h'⟩ := (exists_infer_iff (o := o)).mpr ⟨samples', .list hne'⟩
    obtain ⟨_, declarations', block', hsamples', hfields', hlist'⟩ := exists_listed_of_infer h'
    obtain rfl := Except.ok.inj ((samplesOf_of_holdsSamples (.list hne')).symm.trans hsamples')
    have hdepth := depthOfItems_perm (hsame.map Document.object)
    let root : String := o.qualified (Naming.typeName o.rootName "Root")
    have hmatches : Matches id root root result.definitions.toList result'.definitions.toList := by
      rw [hlist, hlist']
      rw [summary] at hfields hfields'
      rw [← hdepth] at hfields'
      exact (matches_fields (matchesTo o _) hsame hfields hfields').define hfields.nodup hfields'.nodup
    obtain ⟨σ, hrenamed, hroot⟩ := hmatches.exists_renamed
    refine ⟨result', σ, h', hrenamed, ?_, ?_⟩
    · rw [Catalogue.names, Catalogue.names, hlist, hlist']
      exact congrArg some hroot.symm
    · rw [length_warnings_of_infer hsamples h, length_warnings_of_infer hsamples' h', summary, summary,
        hdepth]
      exact (unknownsOfFields_fieldsOf_perm (unknownsOfKinds_evidenceOf_perm _) hsame).symm

/-- One sample has the address of a home and a list without items, the other one an address of
another form. -/
def homeSample : Document :=
  .object
    [("home", .object [("address", .object [("street", .string "Elm 4")])]),
      ("floor", .number (.integer 2)), ("notes", .array [])]

def workSample : Document :=
  .object
    [("floor", .string "roof"),
      ("work", .object [("address", .object [("zip", .number (.integer 10115))])])]

/-- The number changes from one address to the other. -/
theorem infer_perm_addresses : [homeSample, workSample].Perm [workSample, homeSample] ∧
    ∃ result result' σ, infer .usual (.array [homeSample, workSample]) = .ok result ∧
      infer .usual (.array [workSample, homeSample]) = .ok result' ∧
      result.definitions.names = ["Root", "Home", "Address", "Work", "Address2"] ∧
      result'.definitions.names = ["Root", "Work", "Address", "Home", "Address2"] ∧
      Declarations.Renamed σ result.definitions result'.definitions ∧ σ "Root" = "Root" ∧
      result.warnings.length = 1 ∧ result'.warnings.length = 1 := by
  have hperm : [homeSample, workSample].Perm [workSample, homeSample] := .swap _ _ []
  obtain ⟨result, h, hnames, hwarnings⟩ : ∃ result,
      infer .usual (.array [homeSample, workSample]) = .ok result ∧
        result.definitions.names = ["Root", "Home", "Address", "Work", "Address2"] ∧
        result.warnings.length = 1 :=
    exists_ok_of_decide (by decide +kernel)
  obtain ⟨swapped, hswapped, hnames'⟩ : ∃ swapped,
      infer .usual (.array [workSample, homeSample]) = .ok swapped ∧
        swapped.definitions.names = ["Root", "Work", "Address", "Home", "Address2"] :=
    exists_ok_of_decide (by decide +kernel)
  obtain ⟨result', σ, h', hrenamed, hroot, hlength⟩ := infer_perm h hperm
  obtain rfl := Except.ok.inj (hswapped.symm.trans h')
  rw [hnames, hnames'] at hroot
  exact ⟨hperm, result, swapped, σ, h, h', hnames, hnames', hrenamed, (Option.some.inj hroot).symm,
    hwarnings, hlength.trans hwarnings⟩

end RecordDefinitions.Inference
