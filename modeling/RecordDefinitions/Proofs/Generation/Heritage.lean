import RecordDefinitions.Proofs.Generation.InterfaceFiles
import RecordDefinitions.Proofs.Resolution.Sets

/-!
# What an interface inherits

A printed interface lists only the own fields of its definition, and leaves out of its parent what
it lists again. A reader of the file who follows the parents of an interface finds the flattened
fields of the definition, each as the definition that declares it lists it.
-/

namespace RecordDefinitions.Interfaces

open Generation

/-- The members that a file gives to an interface: those that it lists, and those of the
interface that it extends which it does not leave out. -/
inductive Effective (file : List InterfaceEntry) : InterfaceEntry → List MemberEntry → Prop
  | root {i : InterfaceEntry} : i.parent = none → Effective file i i.members
  | extending {i base : InterfaceEntry} {omitted : List String} {inherited : List MemberEntry} :
    i.parent = some (base.name, omitted) → base ∈ file → Effective file base inherited →
      Effective file i (i.members ++ inherited.filter fun m => !omitted.contains m.name)

theorem Effective.unique {file : List InterfaceEntry} {i : InterfaceEntry}
    {members others : List MemberEntry} (hfile : (file.map (·.name)).Nodup)
    (h : Effective file i members) (h' : Effective file i others) : members = others := by
  induction h generalizing others with
  | root hp =>
    cases h' with
    | root => rfl
    | extending hp' _ _ =>
      rw [hp] at hp'
      cases hp'
  | extending hp hbase _ ih =>
    cases h' with
    | root hp' =>
      rw [hp] at hp'
      cases hp'
    | extending hp' hbase' hinherited =>
      rw [hp, Option.some.injEq] at hp'
      obtain ⟨hname, rfl⟩ := Prod.mk.inj hp'
      obtain rfl := List.inj_on_of_nodup_map hfile hbase hbase' hname
      rw [ih hinherited]

/-! ## The file of a resolved set -/

/-- The names of the interfaces for a set. -/
def typeNames (s : ResolvedSet) : TypeNames :=
  nameTypes reservedWords.contains [] (ViewModel.ofResolved s).definitions

/-- The interface of a definition in the file for a set. -/
def interfaceOf (s : ResolvedSet) (d : ResolvedDefinition) : Interface :=
  .ofDefinition (typeNames s) (.ofResolved d)

/-- What is read of the interface of a definition. -/
def entryOf (s : ResolvedSet) (d : ResolvedDefinition) : InterfaceEntry := (interfaceOf s d).entry

/-- What is read of the file for a set. -/
def fileOf (s : ResolvedSet) : List InterfaceEntry := (interfaces (.ofResolved s)).map Interface.entry

variable {r : Registry} {s : ResolvedSet} {d : ResolvedDefinition}

theorem fileOf_eq (s : ResolvedSet) : fileOf s = s.toList.map (entryOf s) := by
  rw [fileOf, interfaces, ViewModel.ofResolved, List.map_map, List.map_map]
  rfl

theorem entryOf_mem (hd : d ∈ s.toList) : entryOf s d ∈ fileOf s := by
  rw [fileOf_eq]
  exact List.mem_map_of_mem hd

/-- The printed file says what is read of it. -/
theorem says_fileOf (h : resolve r = .ok s) : Says (.ofResolved s) (fileOf s) :=
  says_interfaces (ViewModel.closed_of_resolve h)

theorem exists_typeName (hd : d ∈ s.toList) : ∃ word, (typeNames s).lookup d.name = some word := by
  have hview : DefinitionView.ofResolved d ∈ (ViewModel.ofResolved s).definitions :=
    List.mem_map_of_mem hd
  exact exists_lookup_of_mem hview reservedWords.contains []

theorem interfaceName_eq_iff {e : ResolvedDefinition} (hd : d ∈ s.toList) (he : e ∈ s.toList) :
    interfaceName (typeNames s) d.name = interfaceName (typeNames s) e.name ↔ d = e := by
  constructor
  · intro hname
    obtain ⟨word, hword⟩ := exists_typeName hd
    obtain ⟨word', hword'⟩ := exists_typeName he
    rw [interfaceName, interfaceName, hword, hword'] at hname
    obtain rfl : word = word' := hname
    have hsame : d.name = e.name := eq_of_lookup hword hword'
    exact List.inj_on_of_nodup_map s.nodup hd he hsame
  · rintro rfl
    rfl

/-! ## What an interface lists -/

/-- A flattened field as the interface of the definition that declares it lists it. -/
def propertyOf (r : Registry) (names : TypeNames) (f : FlatField) : Property :=
  let readonly := (r.find? f.declaredIn).any (·.immutable)
  .ofField names readonly (.ofField readonly f)

/-- The flattened fields that a definition declares itself. -/
def declared (d : ResolvedDefinition) : List FlatField := d.fields.toList.filter fun f => !f.inherited

theorem declaredIn_of_mem_declared (h : resolve r = .ok s) (hd : d ∈ s.toList) {f : FlatField}
    (hf : f ∈ declared d) : f.declaredIn = d.name := by
  obtain ⟨hf, hown⟩ := List.mem_filter.mp hf
  obtain ⟨below, hextend, -⟩ := exists_extend_of_mem h hd
  rcases (FlatFields.mem_extend_iff hextend).mp hf with ⟨own, -, rfl⟩ | ⟨base, -, -, rfl⟩
  · rfl
  · cases hown

theorem declared_of_root (h : resolve r = .ok s) (hd : d ∈ s.toList)
    (hp : d.definition.parent = none) : declared d = d.fields.toList := by
  obtain ⟨below, hextend, hroot, -⟩ := exists_extend_of_mem h hd
  refine List.filter_eq_self.mpr fun f hf => ?_
  rcases (FlatFields.mem_extend_iff hextend).mp hf with ⟨own, -, rfl⟩ | ⟨base, hbase, -⟩
  · rfl
  · rw [hroot hp] at hbase
    cases hbase

/-- The fields that an interface lists. -/
theorem listed_eq (h : resolve r = .ok s) (hd : d ∈ s.toList) :
    (if (DefinitionView.ofResolved d).parent.isSome then (DefinitionView.ofResolved d).ownFields
      else (DefinitionView.ofResolved d).fields) =
      (declared d).map (.ofField d.definition.immutable) := by
  cases hp : d.definition.parent with
  | none =>
    have hparent : (DefinitionView.ofResolved d).parent = none := hp
    rw [hparent, declared_of_root h hd hp]
    rfl
  | some parent =>
    have hparent : (DefinitionView.ofResolved d).parent = some parent := hp
    rw [hparent]
    exact List.filter_map

theorem members_interfaceOf (h : resolve r = .ok s) (hd : d ∈ s.toList) :
    (interfaceOf s d).members = (declared d).map (propertyOf r (typeNames s)) := by
  have hmembers : (interfaceOf s d).members =
      ((declared d).map (.ofField d.definition.immutable)).map
        (.ofField (typeNames s) d.definition.immutable) := by
    rw [← listed_eq h hd]
    rfl
  rw [hmembers, List.map_map]
  refine List.map_congr_left fun f hf => ?_
  have hfind : r.find? f.declaredIn = some d.definition := by
    rw [declaredIn_of_mem_declared h hd hf]
    exact (parts_of_mem h hd).1
  simp only [propertyOf, hfind, Option.any_some, Function.comp_apply]

theorem omitted_interfaceOf (h : resolve r = .ok s) (hd : d ∈ s.toList) :
    (interfaceOf s d).omitted =
      ((declared d).filter (·.overrides.isSome)).map (·.field.name) := by
  have homitted : (interfaceOf s d).omitted =
      (((declared d).map (FieldView.ofField d.definition.immutable)).filter
        fun f => f.overrides.isSome).map (·.name) := by
    rw [← listed_eq h hd]
    rfl
  rw [homitted, List.filter_map, List.map_map]
  rfl

/-- An interface leaves out of its parent what its definition declares over a field of the
parent. -/
theorem mem_omitted_iff (h : resolve r = .ok s) (hd : d ∈ s.toList) {p : ResolvedDefinition}
    (hp : p ∈ s.toList) (hparent : d.definition.parent = some p.name) {name : String} :
    name ∈ (interfaceOf s d).omitted ↔
      d.definition.fields.contains name ∧ name ∈ p.fields.names := by
  have hextend := extend_of_parent h hd hp hparent
  rw [omitted_interfaceOf h hd, List.mem_map, ← Catalogue.contains_iff, Catalogue.contains,
    Catalogue.contains]
  constructor
  · rintro ⟨f, hf, rfl⟩
    obtain ⟨hf, hover⟩ := List.mem_filter.mp hf
    obtain ⟨hf, hnew⟩ := List.mem_filter.mp hf
    rcases (FlatFields.mem_extend_iff hextend).mp hf with ⟨own, hown, rfl⟩ | ⟨base, -, -, rfl⟩
    · have hfind := Catalogue.find?_of_mem hown
      exact ⟨Option.isSome_iff_exists.mpr ⟨own, hfind⟩, by simpa using hover⟩
    · cases hnew
  · rintro ⟨hown, hbase⟩
    obtain ⟨own, hfind⟩ := Option.isSome_iff_exists.mp hown
    obtain ⟨hmem, rfl⟩ := Catalogue.find?_eq_some_iff.mp hfind
    have hflat := (FlatFields.mem_extend_iff hextend).mpr (Or.inl ⟨own, hmem, rfl⟩)
    refine ⟨_, List.mem_filter.mpr ⟨List.mem_filter.mpr ⟨hflat, rfl⟩, ?_⟩, rfl⟩
    rw [Option.isSome_map]
    exact hbase

/-- The inherited fields of a definition are those of its parent that are not left out. -/
theorem inherited_perm (h : resolve r = .ok s) (hd : d ∈ s.toList) {p : ResolvedDefinition}
    (hp : p ∈ s.toList) (hparent : d.definition.parent = some p.name) :
    (d.fields.toList.filter (·.inherited)).Perm
      ((p.fields.toList.filter fun f => !(interfaceOf s d).omitted.contains f.field.name).map
        fun f => { f with inherited := true }) := by
  have hextend := extend_of_parent h hd hp hparent
  have hnodup : (p.fields.toList.map fun f => { f with inherited := true }).Nodup :=
    List.Nodup.of_map nameOf p.fields.inherit.nodup
  refine (List.perm_ext_iff_of_nodup ((List.Nodup.of_map _ d.fields.nodup).filter _)
    (hnodup.sublist (List.filter_sublist.map _))).mpr fun f => ?_
  have hkept {base : FlatField} (hbase : base ∈ p.fields.toList) :
      ¬ base.field.name ∈ (interfaceOf s d).omitted ↔
        ¬ d.definition.fields.contains base.field.name := by
    rw [mem_omitted_iff h hd hp hparent]
    exact not_congr (and_iff_left (List.mem_map_of_mem hbase))
  simp only [List.mem_filter, List.mem_map, FlatFields.mem_extend_iff hextend,
    List.contains_eq_mem, Bool.not_eq_true', decide_eq_false_iff_not]
  constructor
  · rintro ⟨⟨own, -, rfl⟩ | ⟨base, hbase, hnew, rfl⟩, hinherited⟩
    · cases hinherited
    · exact ⟨base, ⟨hbase, (hkept hbase).mpr hnew⟩, rfl⟩
  · rintro ⟨base, ⟨hbase, hnew⟩, rfl⟩
    exact ⟨Or.inr ⟨base, hbase, (hkept hbase).mp hnew, rfl⟩, rfl⟩

/-! ## What an interface has -/

theorem members_entryOf (h : resolve r = .ok s) (hd : d ∈ s.toList) :
    (entryOf s d).members = (declared d).map fun f => (propertyOf r (typeNames s) f).entry := by
  have hmembers : (entryOf s d).members = (interfaceOf s d).members.map Property.entry := rfl
  rw [hmembers, members_interfaceOf h hd, List.map_map]
  rfl

/-- An interface has the members that the interfaces of the declaring definitions list for the
flattened fields of its definition. -/
theorem exists_effective (h : resolve r = .ok s) (hd : d ∈ s.toList) :
    ∃ members, Effective (fileOf s) (entryOf s d) members ∧
      members.Perm (d.fields.toList.map fun f => (propertyOf r (typeNames s) f).entry) := by
  obtain ⟨ancestors, hascends⟩ := exists_ascends_of_mem h hd
  generalize hname : d.name = name at hascends
  -- The chain of parents carries the induction: the interface of the parent comes before.
  induction hascends generalizing d with
  | root hfind hp =>
    rw [← hname, (parts_of_mem h hd).1, Option.some.injEq] at hfind
    subst hfind
    have hroot : (entryOf s d).parent = none := congrArg (Option.map _) (congrArg (Option.map _) hp)
    refine ⟨_, .root hroot, ?_⟩
    rw [members_entryOf h hd, declared_of_root h hd hp]
  | @step name parent d' rest hfind hp hrest ih =>
    rw [← hname, (parts_of_mem h hd).1, Option.some.injEq] at hfind
    subst hfind
    obtain ⟨p, hmem, rfl⟩ := exists_parent_of_mem h hd hp
    obtain ⟨inherited, heffective, hperm⟩ := ih hmem rfl
    have hbase : (entryOf s d).parent = some ((entryOf s p).name, (interfaceOf s d).omitted) :=
      congrArg (Option.map _) (congrArg (Option.map (interfaceName (typeNames s))) hp)
    refine ⟨_, .extending hbase (entryOf_mem hmem) heffective, ?_⟩
    have hbelow : (inherited.filter fun m => !(interfaceOf s d).omitted.contains m.name).Perm
        ((d.fields.toList.filter (·.inherited)).map
          fun f => (propertyOf r (typeNames s) f).entry) := by
      refine (hperm.filter _).trans ?_
      refine .trans ?_ ((inherited_perm h hd hmem hp).map _).symm
      rw [List.filter_map, List.map_map]
      exact .refl _
    rw [members_entryOf h hd]
    refine (hbelow.append_left _).trans ?_
    rw [← List.map_append]
    refine List.Perm.map _ (List.perm_append_comm.trans ?_)
    exact List.filter_append_perm _ _

theorem nodup_names_fileOf (s : ResolvedSet) : ((fileOf s).map (·.name)).Nodup := by
  rw [fileOf_eq, List.map_map]
  refine (List.nodup_map_iff_inj_on (List.Nodup.of_map _ s.nodup)).mpr ?_
  exact fun d hd e he hname => (interfaceName_eq_iff hd he).mp hname

theorem Effective.perm (h : resolve r = .ok s) (hd : d ∈ s.toList) {members : List MemberEntry}
    (heffective : Effective (fileOf s) (entryOf s d) members) :
    members.Perm (d.fields.toList.map fun f => (propertyOf r (typeNames s) f).entry) := by
  obtain ⟨others, hothers, hperm⟩ := exists_effective h hd
  rw [heffective.unique (nodup_names_fileOf s) hothers]
  exact hperm

theorem Effective.nodup_names (h : resolve r = .ok s) (hd : d ∈ s.toList)
    {members : List MemberEntry} (heffective : Effective (fileOf s) (entryOf s d) members) :
    (members.map (·.name)).Nodup := by
  refine ((heffective.perm h hd).map (·.name)).nodup_iff.mpr ?_
  rw [List.map_map]
  exact d.fields.nodup

/-- The printed interface of a definition has one member for each of its flattened fields. Up to the
marker `readonly` it is the member that the field itself gives, with the same text, and what the
interface lists again is left out of its parent. -/
theorem effective_members_of_resolve (h : resolve r = .ok s) (hd : d ∈ s.toList) :
    Says (.ofResolved s) (fileOf s) ∧ entryOf s d ∈ fileOf s ∧
      (entryOf s d).name = Target.typescript.typeName (.ofResolved s) d.name ∧
      ∃ members, (∀ others, Effective (fileOf s) (entryOf s d) others ↔ others = members) ∧
        (members.map (·.name)).Nodup ∧
        (members.map fun m => { m with readonly := d.definition.immutable }).Perm
          ((DefinitionView.ofResolved d).fields.map fun f =>
            (Property.ofField (typeNames s) d.definition.immutable f).entry) ∧
        (members.map fun m => { m with readonly := d.definition.immutable }.text).Perm
          ((DefinitionView.ofResolved d).fields.map fun f =>
            (Property.ofField (typeNames s) d.definition.immutable f).text) ∧
        ∀ base omitted inherited, base ∈ fileOf s →
          (entryOf s d).parent = some (base.name, omitted) → Effective (fileOf s) base inherited →
          ∀ own ∈ (entryOf s d).members, ∀ m ∈ inherited, m.name = own.name →
            m.name ∈ omitted := by
  obtain ⟨members, heffective, hperm⟩ := exists_effective h hd
  have hnames := heffective.nodup_names h hd
  have hunique {others : List MemberEntry} :
      Effective (fileOf s) (entryOf s d) others → others = members :=
    fun hothers => hothers.unique (nodup_names_fileOf s) heffective
  have hentries : (members.map fun m => { m with readonly := d.definition.immutable }).Perm
      ((DefinitionView.ofResolved d).fields.map fun f =>
        (Property.ofField (typeNames s) d.definition.immutable f).entry) := by
    have hfields : (DefinitionView.ofResolved d).fields =
        d.fields.toList.map (.ofField d.definition.immutable) := rfl
    refine (hperm.map _).trans (.of_eq ?_)
    rw [hfields, List.map_map, List.map_map]
    rfl
  refine ⟨says_fileOf h, entryOf_mem hd, rfl, members, fun others => ⟨hunique, ?_⟩, hnames,
    hentries, ?_, ?_⟩
  · rintro rfl
    exact heffective
  · have htexts := hentries.map MemberEntry.text
    simp only [List.map_map, Function.comp_def, Property.text_entry] at htexts
    exact htexts
  · intro base omitted inherited hbase hparent hinherited own hown m hm hsame
    by_contra hkept
    have hsplit := hunique (.extending hparent hbase hinherited)
    rw [← hsplit, List.map_append, List.nodup_append] at hnames
    have hlisted := List.mem_map_of_mem (f := MemberEntry.name) hown
    have hstill : m.name ∈ (inherited.filter fun m => !omitted.contains m.name).map (·.name) :=
      List.mem_map_of_mem (List.mem_filter.mpr ⟨hm, by simpa using hkept⟩)
    exact hnames.2.2 _ hlisted _ hstill hsame.symm

theorem effective_members_of_resolve_lodgings :
    ∃ s, resolve lodgings = .ok s ∧ write (.ofResolved s) = fileText (fileOf s) ∧
      readFile (write (.ofResolved s)).toList = some (fileOf s) ∧
      ∃ farm ∈ s.toList, farm.name = "Farm" ∧
        ∃ members, Effective (fileOf s) (entryOf s farm) members ∧
          (members.map (·.name)).Nodup ∧
          (members.map fun m => { m with readonly := farm.definition.immutable }.text).Perm
            ((DefinitionView.ofResolved farm).fields.map fun f =>
              (Property.ofField (typeNames s) farm.definition.immutable f).text) := by
  obtain ⟨s, h, hcontained⟩ : ∃ s, resolve lodgings = .ok s ∧
      ∀ d ∈ (ViewModel.ofResolved s).definitions, ∀ f ∈ Target.typescript.listed d, Contained f :=
    exists_ok_of_decide (by decide +kernel)
  have hregistered : lodgings.contains "Farm" := by decide
  obtain ⟨farm, hfarm, hname⟩ := exists_mem_of_contains h hregistered
  obtain ⟨hprinted, -, -, members, heffective, hnodup, -, htexts, -⟩ :=
    effective_members_of_resolve h hfarm
  exact ⟨s, h, hprinted.text, hprinted.read.mpr hcontained, farm, hfarm, hname, members,
    (heffective members).mpr rfl, hnodup, htexts⟩

end RecordDefinitions.Interfaces
