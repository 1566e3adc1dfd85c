import RecordDefinitions.Proofs.Definition.Loading
import RecordDefinitions.Proofs.Inference.Soundness
import RecordDefinitions.Proofs.Resolution.Order
import RecordDefinitions.Proofs.TypeExpr.Normal

/-!
# What is inferred is a tree

Every object that is summarized gets one definition, and one type names it: that of the field
where the object was found. The definition for the samples is named nowhere, every other one
in one place, and that place belongs to a definition that is listed before it.
-/

namespace RecordDefinitions

/-- The definitions that the text of a field names; none when it is no type. -/
def FieldDeclaration.references (f : FieldDeclaration) : List String :=
  match TypeExpr.read f.type with
  | .ok type => type.references
  | .error _ => []

/-- A place in a set of declarations where a definition is named. -/
structure Mention where
  owner : String
  field : String
  named : String
  deriving DecidableEq

/-- All places where some declarations name definitions, as often as they do. -/
def mentionsOf (declarations : List (String × Declaration)) : List Mention :=
  declarations.flatMap fun d =>
    d.2.fields.toList.flatMap fun f => f.2.references.map fun n => ⟨d.1, f.1, n⟩

/-- Declarations without parents whose types are read, in which every definition but the first
is named once, by one field of a definition before it, and nothing else is named. -/
structure IsTree (declarations : Declarations) : Prop where
  unparented : ∀ d ∈ declarations.toList, d.2.parent = none
  read : ∀ d ∈ declarations.toList, ∀ f ∈ d.2.fields.toList,
    ∃ type, TypeExpr.read f.2.type = .ok type
  closed : ∀ m ∈ mentionsOf declarations.toList, declarations.contains m.named
  once : ∀ name ∈ declarations.names.tail, ∃ m,
    (mentionsOf declarations.toList).filter (·.named = name) = [m]
  earlier : ∀ m ∈ mentionsOf declarations.toList,
    declarations.names.idxOf m.owner < declarations.names.idxOf m.named

namespace FieldDeclaration

theorem references_of_read {f : FieldDeclaration} {type : TypeExpr}
    (h : TypeExpr.read f.type = .ok type) : f.references = type.references := by
  rw [references, h]

end FieldDeclaration

/-- The definitions that the fields of a declaration name. -/
def Declaration.references (d : Declaration) : List String :=
  d.fields.toList.flatMap fun f => f.2.references

section Mentions

variable {declarations : List (String × Declaration)}

theorem map_named_mentionsOf (declarations : List (String × Declaration)) :
    (mentionsOf declarations).map Mention.named = declarations.flatMap fun d => d.2.references := by
  simp [mentionsOf, Declaration.references, List.map_flatMap, Function.comp_def]

theorem mem_mentionsOf_iff {m : Mention} :
    m ∈ mentionsOf declarations ↔
      ∃ d ∈ declarations, ∃ f ∈ d.2.fields.toList, ∃ n ∈ f.2.references, ⟨d.1, f.1, n⟩ = m := by
  simp only [mentionsOf, List.mem_flatMap, List.mem_map]

end Mentions

/-! ## Trees resolve -/

namespace IsTree

variable {declarations : Declarations} (h : IsTree declarations) {r : Registry}
  (hload : Registry.ofDeclarations declarations = .ok r)
include h hload

theorem unparented_of_loaded : ∀ d ∈ r.toList, d.parent = none := by
  intro d hd
  obtain ⟨p, hp, hdefinition⟩ := Registry.exists_declared_of_mem hload hd
  obtain ⟨-, -, hparent, -⟩ := Definition.ofDeclaration_eq_ok_iff.mp hdefinition
  rw [hparent]
  exact h.unparented p hp

theorem ordered_of_loaded : r.Ordered := by
  have hnames : r.names = declarations.names :=
    namesOf_eq_of_forall₂ (Registry.ofDeclarations_eq_ok_iff.mp hload)
      fun _ _ hd => Definition.name_of_ofDeclaration hd
  intro d hd f hf n hn
  obtain ⟨p, hp, hdefinition⟩ := Registry.exists_declared_of_mem hload hd
  obtain ⟨-, hname, -, -, hfields⟩ := Definition.ofDeclaration_eq_ok_iff.mp hdefinition
  obtain ⟨declared, hdeclared, hfield⟩ := exists_of_forall₂_left hfields.flip f hf
  obtain ⟨type, htype⟩ := h.read p hp declared hdeclared
  rw [Field.references_of_ofDeclaration hfield htype,
    ← FieldDeclaration.references_of_read htype] at hn
  have hmention : ⟨p.1, declared.1, n⟩ ∈ mentionsOf declarations.toList :=
    mem_mentionsOf_iff.mpr ⟨p, hp, declared, hdeclared, n, hn, rfl⟩
  rw [Catalogue.contains_iff, hnames, hname]
  exact ⟨Catalogue.contains_iff.mp (h.closed _ hmention), h.earlier _ hmention⟩

theorem exists_resolve_of_loaded : ∃ s, resolve r = .ok s := by
  apply exists_resolve_of_resolvable
  exact Registry.resolvable_of_ordered (h.unparented_of_loaded hload) (h.ordered_of_loaded hload)

end IsTree

namespace Inference

/-! ## Fields under their own labels -/

/-- No object in the evidence has two fields of one name. -/
inductive Evidence.LabelsDiffer : Evidence → Prop
  | scalar (kind : ScalarKind) : LabelsDiffer (.scalar kind)
  | object {fields : List (FieldLabel × List Evidence)} :
    (fields.map fun f => f.1.name).Nodup → (∀ f ∈ fields, ∀ kind ∈ f.2, LabelsDiffer kind) →
      LabelsDiffer (.object fields)
  | list {items : List Evidence} : (∀ kind ∈ items, LabelsDiffer kind) → LabelsDiffer (.list items)

theorem labelsDiffer_fieldsOf {evidence : List Document → List Evidence}
    (h : ∀ values, ∀ kind ∈ evidence values, kind.LabelsDiffer) (samples : List Sample) :
    Evidence.LabelsDiffer (.object (fieldsOf evidence samples)) := by
  constructor
  · have hnames : (fieldsOf evidence samples).map (fun f => f.1.name) =
        distinct (samples.flatMap namesOf) := by
      rw [fieldsOf, List.map_map]
      exact List.map_id _
    rw [hnames]
    exact nodup_distinct _
  · intro f hf
    obtain ⟨key, -, rfl⟩ := List.mem_map.mp hf
    exact h _

theorem labelsDiffer_evidenceOf (depth : Nat) :
    ∀ values, ∀ kind ∈ evidenceOf depth values, kind.LabelsDiffer := by
  induction depth with
  | zero =>
    intro values kind hkind
    cases hkind
  | succ depth ih =>
    intro values kind hkind
    rw [evidenceOf_succ] at hkind
    obtain ⟨valueKind, -, rfl⟩ := List.mem_map.mp hkind
    cases valueKind with
    | scalar kind => exact .scalar kind
    | object => exact labelsDiffer_fieldsOf ih _
    | list => exact .list (ih _)

/-! ## Definitions that hang on a list of names -/

/-- Every definition names only definitions behind it. -/
inductive Later : List (String × Declaration) → Prop
  | nil : Later []
  | cons {d : String × Declaration} {block : List (String × Declaration)} :
    (∀ n ∈ d.2.references, n ∈ namesOf block) → Later block → Later (d :: block)

theorem Later.append {first others : List (String × Declaration)} (h : Later first)
    (h' : Later others) : Later (first ++ others) := by
  induction h with
  | nil => exact h'
  | @cons d block hd _ ih =>
    refine .cons ?_ ih
    intro n hn
    have hnames : namesOf (block ++ others) = namesOf block ++ namesOf others := List.map_append
    exact hnames ▸ List.mem_append_left _ (hd n hn)

/-- The given names, together with those in the types of a block of definitions, are the names
of these definitions; and no definition of the block names one before it. -/
structure Hangs (names : List String) (block : List (String × Declaration)) : Prop where
  perm : (names ++ block.flatMap fun d => d.2.references).Perm (namesOf block)
  later : Later block
  unparented : ∀ d ∈ block, d.2.parent = none
  read : ∀ d ∈ block, ∀ f ∈ d.2.fields.toList, ∃ type, TypeExpr.read f.2.type = .ok type

namespace Hangs

theorem nil : Hangs [] [] := ⟨.refl _, .nil, by simp, by simp⟩

theorem append {names names' : List String} {first others : List (String × Declaration)}
    (h : Hangs names first) (h' : Hangs names' others) :
    Hangs (names ++ names') (first ++ others) where
  perm := by
    have hfirst := List.perm_iff_count.mp h.perm
    have hothers := List.perm_iff_count.mp h'.perm
    apply List.perm_iff_count.mpr
    intro n
    have hn := hfirst n
    have hn' := hothers n
    simp only [namesOf, List.map_append, List.flatMap_append, List.count_append] at hn hn' ⊢
    omega
  later := h.later.append h'.later
  unparented := List.forall_mem_append.mpr ⟨h.unparented, h'.unparented⟩
  read := List.forall_mem_append.mpr ⟨h.read, h'.read⟩

/-- A definition takes the place of the names that its fields mention. -/
theorem define {name : String} {decl : Declaration} {block : List (String × Declaration)}
    (h : Hangs decl.references block) (hparent : decl.parent = none)
    (hread : ∀ f ∈ decl.fields.toList, ∃ type, TypeExpr.read f.2.type = .ok type) :
    Hangs [name] ((name, decl) :: block) where
  perm := h.perm.cons name
  later := by
    refine .cons ?_ h.later
    intro n hn
    exact h.perm.subset (List.mem_append_left _ hn)
  unparented := List.forall_mem_cons.mpr ⟨hparent, h.unparented⟩
  read := List.forall_mem_cons.mpr ⟨hread, h.read⟩

theorem nodup {names : List String} {block : List (String × Declaration)} (h : Hangs names block)
    (hblock : (namesOf block).Nodup) : names.Nodup :=
  (List.nodup_append.mp (h.perm.nodup_iff.mpr hblock)).1

end Hangs

/-- Declared fields have some names and types that are read, and a block hangs on what they
name. -/
structure FieldsHang (names : List String) (declared : List (String × FieldDeclaration))
    (block : List (String × Declaration)) : Prop where
  names : namesOf declared = names
  read : ∀ f ∈ declared, ∃ type, TypeExpr.read f.2.type = .ok type
  hangs : Hangs (declared.flatMap fun f => f.2.references) block

theorem FieldsHang.define {names : List String} {declared : List (String × FieldDeclaration)}
    {block : List (String × Declaration)} (h : FieldsHang names declared block)
    (hnames : names.Nodup) (name : String) :
    Hangs [name] ((name, declarationOf declared) :: block) := by
  have hlist : (declarationOf declared).fields.toList = declared := by
    apply Catalogue.toList_ofList
    rw [h.names]
    exact hnames
  apply Hangs.define
  · rw [Declaration.references, hlist]
    exact h.hangs
  · rfl
  · rw [hlist]
    exact h.read

/-! ## What a summary asks for -/

section Listed

variable {o : ImportOptions}

/-- The names of a block are definition names, and no two are the same. -/
structure WellNamed (block : List (String × Declaration)) : Prop where
  isDefinitionName : ∀ d ∈ block, TypeExpr.isDefinitionName d.1.toList
  nodup : (namesOf block).Nodup

namespace WellNamed

theorem of_append {first others : List (String × Declaration)} (h : WellNamed (first ++ others)) :
    WellNamed first ∧ WellNamed others := by
  obtain ⟨hfirst, hothers⟩ := List.forall_mem_append.mp h.isDefinitionName
  have hnodup : (namesOf first ++ namesOf others).Nodup := by
    rw [namesOf, namesOf, ← List.map_append]
    exact h.nodup
  exact ⟨⟨hfirst, (List.nodup_append.mp hnodup).1⟩, ⟨hothers, (List.nodup_append.mp hnodup).2.1⟩⟩

theorem of_cons {d : String × Declaration} {block : List (String × Declaration)}
    (h : WellNamed (d :: block)) : WellNamed block :=
  ⟨(List.forall_mem_cons.mp h.isDefinitionName).2, h.nodup.of_cons⟩

end WellNamed

/-- A declared field names what the alternatives of its type name. -/
theorem references_declared {types : List TypeExpr} (label : FieldLabel)
    (hreadable : ∀ t ∈ types, t.Readable) (hsingle : ∀ t ∈ types, t.isUnion = false)
    (hnodup : (types.flatMap TypeExpr.references).Nodup) :
    TypeExpr.read (declared label (.unionOf types)).2.type = .ok (.unionOf types) ∧
      (declared label (.unionOf types)).2.references = types.flatMap TypeExpr.references := by
  have hread : TypeExpr.read (declared label (.unionOf types)).2.type = .ok (.unionOf types) :=
    (TypeExpr.readable_unionOf_of_forall hreadable).read_text
  refine ⟨hread, ?_⟩
  rw [FieldDeclaration.references_of_read hread]
  exact TypeExpr.references_unionOf_of_nodup hsingle hnodup

mutual

theorem KindListed.hangs {kind : Evidence} {type : TypeExpr} {block : List (String × Declaration)} :
    KindListed o kind type block → kind.LabelsDiffer → WellNamed block →
      (type.Readable ∧ type.isUnion = false) ∧ Hangs type.references block
  | .scalar kind, _, _ => ⟨⟨.scalar kind, rfl⟩, .nil⟩
  | .object _ hfields, hlabels, hblock => by
    cases hlabels with
    | object hnodup hkinds =>
      have hname := hblock.isDefinitionName _ List.mem_cons_self
      exact ⟨⟨.definition hname, rfl⟩, (hfields.hangs hkinds hblock.of_cons).define hnodup _⟩
  | .list hitems, hlabels, hblock => by
    cases hlabels with
    | list hkinds =>
      obtain ⟨htypes, hhangs⟩ := hitems.hangs hkinds hblock
      refine ⟨⟨.list (TypeExpr.readable_unionOf_of_forall fun t ht => (htypes t ht).1), rfl⟩, ?_⟩
      rw [TypeExpr.references, TypeExpr.references_unionOf_of_nodup (fun t ht => (htypes t ht).2)
        (hhangs.nodup hblock.nodup)]
      exact hhangs

theorem KindsListed.hangs {kinds : List Evidence} {types : List TypeExpr}
    {block : List (String × Declaration)} :
    KindsListed o kinds types block → (∀ kind ∈ kinds, kind.LabelsDiffer) → WellNamed block →
      (∀ t ∈ types, t.Readable ∧ t.isUnion = false) ∧
        Hangs (types.flatMap TypeExpr.references) block
  | .nil, _, _ => ⟨by simp, .nil⟩
  | .cons hkind hkinds, hlabels, hblock => by
    obtain ⟨hlabel, hlabels⟩ := List.forall_mem_cons.mp hlabels
    obtain ⟨hfirst, hothers⟩ := hblock.of_append
    obtain ⟨htype, hhangs⟩ := hkind.hangs hlabel hfirst
    obtain ⟨htypes, hhangs'⟩ := hkinds.hangs hlabels hothers
    exact ⟨List.forall_mem_cons.mpr ⟨htype, htypes⟩, hhangs.append hhangs'⟩

theorem FieldsListed.hangs {fields : List (FieldLabel × List Evidence)}
    {declared : List (String × FieldDeclaration)} {block : List (String × Declaration)} :
    FieldsListed o fields declared block → (∀ f ∈ fields, ∀ kind ∈ f.2, kind.LabelsDiffer) →
      WellNamed block →
      FieldsHang (fields.map fun f => f.1.name) declared block
  | .nil, _, _ => ⟨rfl, by simp, .nil⟩
  | @FieldsListed.cons _ label _ _ _ _ _ _ hkinds hfields, hlabels, hblock => by
    obtain ⟨hlabel, hlabels⟩ := List.forall_mem_cons.mp hlabels
    obtain ⟨hfirst, hothers⟩ := hblock.of_append
    obtain ⟨htypes, hhangs⟩ := hkinds.hangs hlabel hfirst
    have hrest := hfields.hangs hlabels hothers
    obtain ⟨htype, hreferences⟩ := references_declared label (fun t ht => (htypes t ht).1)
      (fun t ht => (htypes t ht).2) (hhangs.nodup hfirst.nodup)
    refine ⟨congrArg (label.name :: ·) hrest.names,
      List.forall_mem_cons.mpr ⟨⟨_, htype⟩, hrest.read⟩, ?_⟩
    rw [List.flatMap_cons, hreferences]
    exact hhangs.append hrest.hangs

end

end Listed

/-! ## The whole output -/

section Output

variable {block : List (String × Declaration)}

theorem owner_mem_of_mentionsOf {m : Mention} (hm : m ∈ mentionsOf block) :
    m.owner ∈ namesOf block := by
  obtain ⟨d, hd, f, -, n, -, rfl⟩ := mem_mentionsOf_iff.mp hm
  exact List.mem_map_of_mem (f := nameOf) hd

/-- Places in the list of names grow from the owner of a mention to what it names. -/
theorem Later.idxOf_lt (h : Later block) (hnodup : (namesOf block).Nodup) :
    ∀ m ∈ mentionsOf block,
      m.named ∈ namesOf block ∧ (namesOf block).idxOf m.owner < (namesOf block).idxOf m.named := by
  induction h with
  | nil =>
    intro m hm
    cases hm
  | @cons d block hd _ ih =>
    intro m hm
    have hnames : namesOf (d :: block) = d.1 :: namesOf block := rfl
    rw [hnames] at hnodup ⊢
    obtain ⟨hfresh, hnodup⟩ := List.nodup_cons.mp hnodup
    have hother {n : String} (hn : n ∈ namesOf block) : d.1 ≠ n := by
      rintro rfl
      exact hfresh hn
    rw [mentionsOf, List.flatMap_cons, List.mem_append] at hm
    rcases hm with hown | hrest
    · obtain ⟨f, hf, hm⟩ := List.mem_flatMap.mp hown
      obtain ⟨n, hn, rfl⟩ := List.mem_map.mp hm
      have hlater : n ∈ namesOf block := hd n (List.mem_flatMap_of_mem hf hn)
      refine ⟨List.mem_cons_of_mem _ hlater, ?_⟩
      rw [List.idxOf_cons_self, List.idxOf_cons_ne _ (hother hlater)]
      exact Nat.succ_pos _
    · obtain ⟨hnamed, hlt⟩ := ih hnodup m hrest
      have howner := owner_mem_of_mentionsOf hrest
      refine ⟨List.mem_cons_of_mem _ hnamed, ?_⟩
      rw [List.idxOf_cons_ne _ (hother howner), List.idxOf_cons_ne _ (hother hnamed)]
      exact Nat.succ_lt_succ hlt

/-- A definition in front of a block that hangs on its fields is the root of a tree. -/
theorem isTree_of_hangs {declarations : Declarations} {root : String × Declaration}
    (hlist : declarations.toList = root :: block) (h : Hangs [root.1] (root :: block)) :
    IsTree declarations := by
  have hnames : declarations.names = root.1 :: namesOf block := by
    rw [Catalogue.names, hlist]
    rfl
  have hplaces := h.later.idxOf_lt (hlist ▸ declarations.nodup)
  rw [← hlist] at h hplaces
  refine ⟨h.unparented, h.read, ?_, ?_, fun m hm => (hplaces m hm).2⟩
  · intro m hm
    exact Catalogue.contains_iff.mpr (hplaces m hm).1
  · intro name hname
    rw [hnames, List.tail_cons] at hname
    have hperm : ((mentionsOf declarations.toList).map Mention.named).Perm (namesOf block) := by
      have hall := h.perm
      rw [← map_named_mentionsOf, ← Catalogue.names, hnames] at hall
      exact hall.cons_inv
    have hnodup : (namesOf block).Nodup := by
      have hall := declarations.nodup
      rw [← Catalogue.names, hnames] at hall
      exact hall.of_cons
    have hcount : ((mentionsOf declarations.toList).map Mention.named).count name = 1 := by
      rw [hperm.count_eq]
      exact List.count_eq_one_of_mem hnodup hname
    apply List.length_eq_one_iff.mp
    rw [← List.countP_eq_length_filter, ← hcount, List.count_eq_countP, List.countP_map]
    rfl

end Output

theorem isTree_definitions {o : ImportOptions} (ho : o.HasPlainNamespace) {d : Document}
    {result : ImportResult} (h : infer o d = .ok result) : IsTree result.definitions := by
  obtain ⟨samples, declared, block, -, hfields, hlist⟩ := exists_listed_of_infer h
  have hnamed : WellNamed result.definitions.toList :=
    ⟨isDefinitionName_of_infer ho h, result.definitions.nodup⟩
  rw [hlist] at hnamed
  have hlabels : Evidence.LabelsDiffer (.object (summary samples)) :=
    labelsDiffer_fieldsOf (labelsDiffer_evidenceOf _) samples
  cases hlabels with
  | object hnodup hkinds =>
    apply isTree_of_hangs hlist
    exact (hfields.hangs hkinds hnamed.of_cons).define hnodup _

/-- What is inferred under a plain namespace is a tree, and resolves whenever it is loaded. -/
theorem isTree_of_infer {o : ImportOptions} (ho : o.HasPlainNamespace) {d : Document}
    {result : ImportResult} (h : infer o d = .ok result) :
    IsTree result.definitions ∧
      ∀ r, Registry.ofDeclarations result.definitions = .ok r → ∃ s, resolve r = .ok s := by
  have htree := isTree_definitions ho h
  exact ⟨htree, fun r hload => htree.exists_resolve_of_loaded hload⟩

theorem mentionsOf_invoices :
    ∃ result r, infer invoiceOptions invoices = .ok result ∧
      Registry.ofDeclarations result.definitions = .ok r ∧
      result.definitions.names = ["Shop.Sales.Invoice", "Shop.Sales.Line"] ∧
      mentionsOf result.definitions.toList = [⟨"Shop.Sales.Invoice", "lines", "Shop.Sales.Line"⟩] := by
  have hcheck : (match infer invoiceOptions invoices with
      | .ok result =>
        match Registry.ofDeclarations result.definitions with
        | .ok _ =>
          decide (result.definitions.names = ["Shop.Sales.Invoice", "Shop.Sales.Line"] ∧
            mentionsOf result.definitions.toList =
              [⟨"Shop.Sales.Invoice", "lines", "Shop.Sales.Line"⟩])
        | .error _ => false
      | .error _ => false) = true := by decide +kernel
  split at hcheck
  · rename_i result hresult
    split at hcheck
    · rename_i r hr
      exact ⟨result, r, hresult, hr, of_decide_eq_true hcheck⟩
    · cases hcheck
  · cases hcheck

theorem isTree_of_infer_invoices :
    invoiceOptions.HasPlainNamespace ∧ ∃ result, infer invoiceOptions invoices = .ok result ∧
      result.definitions.names = ["Shop.Sales.Invoice", "Shop.Sales.Line"] ∧
      mentionsOf result.definitions.toList = [⟨"Shop.Sales.Invoice", "lines", "Shop.Sales.Line"⟩] ∧
      IsTree result.definitions ∧
      ∃ r s, Registry.ofDeclarations result.definitions = .ok r ∧ resolve r = .ok s := by
  have hplain : invoiceOptions.HasPlainNamespace := by
    rintro n ⟨⟩
    exact Or.inr (by decide)
  obtain ⟨result, r, hresult, hload, hnames, hmentions⟩ := mentionsOf_invoices
  obtain ⟨htree, hresolves⟩ := isTree_of_infer hplain hresult
  obtain ⟨s, hs⟩ := hresolves r hload
  exact ⟨hplain, result, hresult, hnames, hmentions, htree, r, s, hload, hs⟩

end Inference

end RecordDefinitions
