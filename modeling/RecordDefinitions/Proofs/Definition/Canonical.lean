import RecordDefinitions.Generation.Target
import RecordDefinitions.Proofs.Definition.Loading
import RecordDefinitions.Proofs.TypeExpr.Normal

/-!
# Canonical declarations

A registry is written back in one way, and what is written is loaded as that registry. This
holds of registries that were loaded themselves, and of those that were built from names,
types and marks: their fields have names, their types are readable, and a field that holds a
collection has a name for one element.
-/

namespace RecordDefinitions

/-! ## Fields and definitions that their declarations lead back to -/

/-- A field that is loaded again from its own declaration. -/
structure Field.Canonical (f : Field) : Prop where
  named : f.name ≠ ""
  readable : f.type.Readable
  singular : f.holding ≠ .single → f.singularName.isSome

/-- A definition with a name and with fields of that kind. -/
structure Definition.Canonical (d : Definition) : Prop where
  named : d.name ≠ ""
  fields : ∀ f ∈ d.fields.toList, f.Canonical

namespace Field

variable {f : Field}

theorem readable_containerType (h : f.type.Readable) : f.containerType.Readable := by
  unfold containerType
  split
  · exact h
  · exact .list h
  · exact .map h

/-- The type and the mark that are written say how the values are held. -/
theorem held_declaration (f : Field) :
    held f.containerType f.declaration.collection f.declaration.associative =
      (f.type, f.holding) := by
  cases hholding : f.holding with
  | single =>
    have hcollection : f.declaration.collection =
        if f.type.isCollection then some false else none := by
      simp [declaration, hholding]
    have hassociative : f.declaration.associative = none := rfl
    rw [containerType, hholding, hcollection, hassociative]
    cases f.type <;> rfl
  | list =>
    have hcollection : f.declaration.collection = none := by simp [declaration, hholding]
    rw [containerType, hholding, hcollection]
    rfl
  | map =>
    have hcollection : f.declaration.collection = none := by simp [declaration, hholding]
    rw [containerType, hholding, hcollection]
    rfl

theorem getD_flag (b : Bool) : (flag b).getD false = b := by
  cases b <;> rfl

/-- A name of one element that was left out follows from the name of the field. -/
theorem singular_declaration (h : f.holding ≠ .single → f.singularName.isSome) :
    (if f.holding = .single then f.declaration.singular
      else f.declaration.singular.or (some (Naming.singular f.name))) = f.singularName := by
  by_cases hsingle : f.holding = .single
  · rw [if_pos hsingle, declaration, if_pos hsingle]
  · obtain ⟨singular, hsome⟩ := Option.isSome_iff_exists.mp (h hsingle)
    rw [if_neg hsingle, declaration, if_neg hsingle, hsome]
    by_cases hfollows : singular = Naming.singular f.name
    · simp [Option.filter, hfollows]
    · simp [Option.filter, hfollows]

theorem Canonical.ofDeclaration_declaration (h : f.Canonical) (owner : String) :
    ofDeclaration owner f.name f.declaration = .ok f := by
  apply ofDeclaration_eq_ok_iff.mpr
  refine ⟨h.named, f.containerType, false, ?_, ?_⟩
  · exact (readable_containerType h.readable).readNullable_text
  · rw [held_declaration f]
    dsimp only
    rw [singular_declaration h.singular, declaration]
    dsimp only
    rw [getD_flag, getD_flag, Bool.or_false]

theorem readable_held {type : TypeExpr} (h : type.Readable) (collection associative : Option Bool) :
    (held type collection associative).1.Readable := by
  unfold held
  dsimp only
  split
  · exact h
  · cases h with
    | list helement => exact helement
    | map helement => exact helement
    | _ =>
      dsimp only
      split
      all_goals
        constructor <;> assumption

/-- Every field that is loaded is canonical. -/
theorem canonical_of_ofDeclaration {owner name : String} {d : FieldDeclaration}
    (h : ofDeclaration owner name d = .ok f) : f.Canonical := by
  obtain ⟨hname, type, nullInType, hread, rfl⟩ := ofDeclaration_eq_ok_iff.mp h
  refine ⟨hname, ?_, ?_⟩
  · exact readable_held (TypeExpr.readable_of_readNullable hread) _ _
  · intro hholding
    dsimp only at hholding ⊢
    rw [if_neg hholding]
    cases d.singular <;> rfl

end Field

namespace Definition

variable {d : Definition}

theorem Canonical.ofDeclaration_declaration (h : d.Canonical) :
    ofDeclaration d.name d.declaration = .ok d := by
  apply ofDeclaration_eq_ok_iff.mpr
  refine ⟨h.named, rfl, rfl, rfl, ?_⟩
  have hnames : namesOf (d.fields.toList.map fun f => (f.name, f.declaration)) = d.fields.names := by
    rw [namesOf, List.map_map]
    rfl
  have hlist : d.declaration.fields.toList =
      d.fields.toList.map fun f => (f.name, f.declaration) := by
    apply Catalogue.toList_ofList
    rw [hnames]
    exact d.fields.nodup
  rw [hlist, List.forall₂_map_left_iff, List.forall₂_same]
  intro f hf
  exact (h.fields f hf).ofDeclaration_declaration d.name

/-- Every definition that is loaded is canonical. -/
theorem canonical_of_ofDeclaration {name : String} {decl : Declaration}
    (h : ofDeclaration name decl = .ok d) : d.Canonical := by
  obtain ⟨hname, rfl, -, -, hfields⟩ := ofDeclaration_eq_ok_iff.mp h
  refine ⟨hname, ?_⟩
  intro f hf
  obtain ⟨_, -, hdeclared⟩ := exists_of_forall₂_left hfields.flip f hf
  exact Field.canonical_of_ofDeclaration hdeclared

end Definition

/-! ## Built fields and definitions -/

/-- Fields that are built from a name and the text of a type, by setting marks and by saying,
as often as one likes, how their values are held. -/
inductive Field.Built : Field → Prop
  | ofType {name text : String} {type : TypeExpr} :
    name ≠ "" → TypeExpr.read text = .ok type → Built (.ofType name type)
  | holds {f : Field} (holding : Holding) : Built f → Built (f.holds holding)
  | nullable {f : Field} (nullable : Bool) : Built f → Built { f with nullable }
  | required {f : Field} (required : Bool) : Built f → Built { f with required }
  | defaultValue {f : Field} (defaultValue : Option Document) :
    Built f → Built { f with defaultValue }
  | singular {f : Field} (singular : String) :
    Built f → Built { f with singularName := some singular }
  | deprecated {f : Field} (deprecated : Option String) : Built f → Built { f with deprecated }

/-- Definitions that are built from a name, by setting the parent and the mark and by adding
or replacing fields. -/
inductive Definition.Built : Definition → Prop
  | ofName {name : String} : name ≠ "" → Built (.ofName name)
  | parent {d : Definition} (parent : Option String) : Built d → Built { d with parent }
  | immutable {d : Definition} (immutable : Bool) : Built d → Built { d with immutable }
  | withField {d : Definition} {f : Field} : Built d → f.Built → Built (d.withField f)

/-- Registries that are loaded, or to which built definitions are added. -/
inductive Registry.Obtained : Registry → Prop
  | loaded {declarations : Declarations} {r : Registry} :
    Registry.ofDeclarations declarations = .ok r → Obtained r
  | empty : Obtained .empty
  | register {r r' : Registry} {d : Definition} :
    Obtained r → d.Built → r.register d = .ok r' → Obtained r'

theorem Field.Canonical.holds {f : Field} (h : f.Canonical) (holding : Holding) :
    (f.holds holding).Canonical := by
  refine ⟨h.named, h.readable, ?_⟩
  intro hholding
  have hcollection : holding ≠ .single := hholding
  simp only [Field.holds, if_neg hcollection]
  cases f.singularName <;> rfl

theorem Field.Built.canonical {f : Field} (h : f.Built) : f.Canonical := by
  induction h with
  | ofType hname hread =>
    exact ⟨hname, TypeExpr.readable_of_read hread, fun hholding => absurd rfl hholding⟩
  | holds holding _ ih => exact ih.holds holding
  | singular singular _ ih => exact ⟨ih.named, ih.readable, fun _ => rfl⟩
  | _ _ _ ih => exact ⟨ih.named, ih.readable, ih.singular⟩

theorem Definition.Built.canonical {d : Definition} (h : d.Built) : d.Canonical := by
  induction h with
  | ofName hname =>
    refine ⟨hname, ?_⟩
    intro f hf
    cases hf
  | withField _ hf ih =>
    refine ⟨ih.named, ?_⟩
    intro f hm
    rcases Catalogue.mem_of_mem_insert hm with rfl | hm
    · exact hf.canonical
    · exact ih.fields f hm
  | _ _ _ ih => exact ⟨ih.named, ih.fields⟩

namespace Registry

variable {r : Registry}

theorem Obtained.canonical (h : r.Obtained) : ∀ d ∈ r.toList, d.Canonical := by
  induction h with
  | loaded hload =>
    intro d hd
    obtain ⟨_, -, hdeclared⟩ := exists_declared_of_mem hload hd
    exact Definition.canonical_of_ofDeclaration hdeclared
  | empty =>
    intro d hd
    cases hd
  | register _ hbuilt hregister ih =>
    intro d hd
    unfold Registry.register at hregister
    split_ifs at hregister
    cases hregister
    rcases Catalogue.mem_of_mem_insert hd with rfl | hd
    · exact hbuilt.canonical
    · exact ih d hd

theorem ofDeclarations_declarations_of_canonical (h : ∀ d ∈ r.toList, d.Canonical) :
    ofDeclarations r.declarations = .ok r := by
  have hnames : namesOf (r.toList.map fun d => (d.name, d.declaration)) = r.names := by
    rw [namesOf, List.map_map]
    rfl
  have hlist : r.declarations.toList = r.toList.map fun d => (d.name, d.declaration) := by
    apply Catalogue.toList_ofList
    rw [hnames]
    exact r.nodup
  apply ofDeclarations_eq_ok_iff.mpr
  rw [hlist, List.forall₂_map_left_iff, List.forall₂_same]
  intro d hd
  exact (h d hd).ofDeclaration_declaration

/-- The declarations of a registry are loaded as that registry. What is loaded and written
once is therefore written in the same way ever after, and the same views and the same code
come from it. -/
theorem loads_declarations (h : r.Obtained) :
    ofDeclarations r.declarations = .ok r ∧
      declarations <$> ofDeclarations r.declarations = .ok r.declarations ∧
      ∀ declarations, ofDeclarations declarations = .ok r →
        ViewModel.ofDeclarations r.declarations = ViewModel.ofDeclarations declarations ∧
          ∀ target : Target, target.generate r.declarations = target.generate declarations := by
  have hloads : ofDeclarations r.declarations = .ok r :=
    ofDeclarations_declarations_of_canonical h.canonical
  refine ⟨hloads, ?_, ?_⟩
  · rw [hloads]
    rfl
  · intro declarations hdeclarations
    have hview : ViewModel.ofDeclarations r.declarations = ViewModel.ofDeclarations declarations := by
      rw [ViewModel.ofDeclarations, ViewModel.ofDeclarations, hloads, hdeclarations]
    refine ⟨hview, ?_⟩
    intro target
    rw [Target.generate, Target.generate, hview]

/-- A map of lists that is declared as a list of them and marked. -/
def markedShelves : Declarations :=
  Catalogue.ofList [("Shelf", ⟨none, false, Catalogue.ofList [("books",
    { FieldDeclaration.ofType "array< string[] >" with
      associative := some true
      singular := some "row" })]⟩)]

/-- The same definition, built. -/
def shelf : Definition :=
  (Definition.ofName "Shelf").withField
    ({ Field.ofType "books" (.list (.scalar .string)) with singularName := some "row" }.holds .map)

theorem ofDeclarations_markedShelves :
    ofDeclarations markedShelves = .ok (Catalogue.empty.insert shelf) := by
  obtain ⟨r, hr, rfl⟩ : ∃ r, ofDeclarations markedShelves = .ok r ∧
      r = Catalogue.empty.insert shelf := exists_ok_of_decide (by decide +kernel)
  exact hr

theorem loads_declarations_shelf :
    ∃ r : Registry, r.toList = [shelf] ∧ ofDeclarations markedShelves = .ok r ∧
      r.declarations ≠ markedShelves ∧ ofDeclarations r.declarations = .ok r ∧
      ViewModel.ofDeclarations r.declarations = ViewModel.ofDeclarations markedShelves := by
  have hread : TypeExpr.read (TypeExpr.list (.scalar .string)).text = .ok (.list (.scalar .string)) :=
    TypeExpr.Readable.read_text (.list (.scalar .string))
  have hfield := ((Field.Built.ofType (by decide : "books" ≠ "") hread).singular "row").holds .map
  have hshelf : shelf.Built := (Definition.Built.ofName (by decide)).withField hfield
  have hbuilt : Obtained (Catalogue.empty.insert shelf) := .register .empty hshelf rfl
  have hmarked := ofDeclarations_markedShelves
  obtain ⟨hloads, -, hsame⟩ := loads_declarations hbuilt
  exact ⟨_, rfl, hmarked, by decide +kernel, hloads, (hsame markedShelves hmarked).1⟩

end Registry

end RecordDefinitions
