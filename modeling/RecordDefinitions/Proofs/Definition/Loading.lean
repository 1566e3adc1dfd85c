import RecordDefinitions.Definition.Registry
import RecordDefinitions.Proofs.Outcome

/-!
# When declarations are loaded

A registry is loaded item by item: each declaration gives its definition, and each declared
field its field. Nothing else can go wrong than an empty name and a type that is not read.
-/

namespace RecordDefinitions

theorem ne_empty_iff {name : String} : name ≠ "" ↔ ¬ name.isEmpty = true := by
  rw [ne_eq, String.isEmpty_iff]

namespace Field

variable {owner name : String} {d : FieldDeclaration} {f : Field}

/-- A declared field has a name and a type that is read, and its values are held as the type
and the marks say. -/
theorem ofDeclaration_eq_ok_iff :
    ofDeclaration owner name d = .ok f ↔
      name ≠ "" ∧ ∃ type nullInType, TypeExpr.readNullable d.type = .ok (type, nullInType) ∧
        f = { name
              type := (held type d.collection d.associative).1
              holding := (held type d.collection d.associative).2
              nullable := d.nullable.getD false || nullInType
              required := d.required.getD false
              defaultValue := d.defaultValue
              singularName :=
                if (held type d.collection d.associative).2 = .single then d.singular
                else d.singular.or (some (Naming.singular name))
              deprecated := d.deprecated } := by
  unfold ofDeclaration
  rw [ne_empty_iff]
  by_cases hname : name.isEmpty = true
  · rw [if_pos hname]
    constructor
    · intro h
      cases h
    · intro h
      exact absurd hname h.1
  · rw [if_neg hname]
    cases hread : TypeExpr.readNullable d.type with
    | error fault =>
      constructor
      · intro h
        cases h
      · rintro ⟨-, type, nullInType, hok, -⟩
        cases hok
    | ok read =>
      constructor
      · intro h
        cases h
        exact ⟨hname, read.1, read.2, rfl, rfl⟩
      · rintro ⟨-, type, nullInType, hok, rfl⟩
        cases hok
        rfl

theorem exists_ofDeclaration_iff :
    (∃ f, ofDeclaration owner name d = .ok f) ↔
      name ≠ "" ∧ ∃ read, TypeExpr.readNullable d.type = .ok read := by
  constructor
  · rintro ⟨f, h⟩
    obtain ⟨hname, type, nullInType, hread, -⟩ := ofDeclaration_eq_ok_iff.mp h
    exact ⟨hname, (type, nullInType), hread⟩
  · rintro ⟨hname, ⟨type, nullInType⟩, hread⟩
    exact ⟨_, ofDeclaration_eq_ok_iff.mpr ⟨hname, type, nullInType, hread, rfl⟩⟩

theorem name_of_ofDeclaration (h : ofDeclaration owner name d = .ok f) : f.name = name := by
  obtain ⟨-, type, nullInType, -, rfl⟩ := ofDeclaration_eq_ok_iff.mp h
  rfl

/-- However its values are held, a field names the definitions that the declared type names. -/
theorem references_held (type : TypeExpr) (collection associative : Option Bool) :
    (held type collection associative).1.references = type.references := by
  unfold held
  dsimp only
  split
  · rfl
  · cases type with
    | list element => rfl
    | map element => rfl
    | _ =>
      dsimp only
      split <;> rfl

theorem references_of_ofDeclaration (h : ofDeclaration owner name d = .ok f) {type : TypeExpr}
    (hread : TypeExpr.read d.type = .ok type) : f.type.references = type.references := by
  obtain ⟨-, readType, nullInType, hnullable, rfl⟩ := ofDeclaration_eq_ok_iff.mp h
  obtain ⟨⟨_, _⟩, hok, hread⟩ := bind_eq_ok_iff.mp hread
  cases hok.symm.trans hnullable
  dsimp only at hread
  split_ifs at hread
  · cases hread
  · cases hread
    exact references_held type d.collection d.associative

end Field

section Names

variable {α β : Type} [Named α] [Named β] {R : α → β → Prop}

theorem namesOf_eq_of_forall₂ {as : List α} {bs : List β} (h : List.Forall₂ R as bs)
    (hR : ∀ a b, R a b → nameOf b = nameOf a) : namesOf bs = namesOf as := by
  induction h with
  | nil => rfl
  | cons hab _ ih => exact congrArg₂ List.cons (hR _ _ hab) ih

/-- What is made item by item of a catalogue, under the same names, is one again. -/
theorem Catalogue.nodup_of_forall₂ {c : Catalogue α} {bs : List β}
    (h : List.Forall₂ R c.toList bs) (hR : ∀ a b, R a b → nameOf b = nameOf a) :
    (namesOf bs).Nodup := by
  rw [namesOf_eq_of_forall₂ h hR]
  exact c.nodup

end Names

namespace Definition

variable {name : String} {decl : Declaration} {d : Definition}

/-- A declared definition has a name, and its fields are the declared ones in their order. -/
theorem ofDeclaration_eq_ok_iff :
    ofDeclaration name decl = .ok d ↔
      name ≠ "" ∧ d.name = name ∧ d.parent = decl.parent ∧ d.immutable = decl.immutable ∧
        List.Forall₂ (fun declared f => Field.ofDeclaration name declared.1 declared.2 = .ok f)
          decl.fields.toList d.fields.toList := by
  have hlist {fields : List Field}
      (h : List.Forall₂ (fun declared f => Field.ofDeclaration name declared.1 declared.2 = .ok f)
        decl.fields.toList fields) : (Catalogue.ofList fields).toList = fields := by
    apply Catalogue.toList_ofList
    exact Catalogue.nodup_of_forall₂ h fun _ _ hf => Field.name_of_ofDeclaration hf
  unfold ofDeclaration
  rw [ne_empty_iff]
  by_cases hname : name.isEmpty = true
  · rw [if_pos hname]
    constructor
    · intro h
      cases h
    · intro h
      exact absurd hname h.1
  · rw [if_neg hname]
    constructor
    · intro h
      obtain ⟨fields, hfields, h⟩ := bind_eq_ok_iff.mp h
      cases h
      have hall := mapM_eq_ok_iff.mp hfields
      refine ⟨hname, rfl, rfl, rfl, ?_⟩
      rw [hlist hall]
      exact hall
    · rintro ⟨-, rfl, hparent, himmutable, hall⟩
      apply bind_eq_ok_iff.mpr
      refine ⟨d.fields.toList, mapM_eq_ok_iff.mpr hall, ?_⟩
      rw [Catalogue.ofList_toList, ← hparent, ← himmutable]
      rfl

theorem name_of_ofDeclaration (h : ofDeclaration name decl = .ok d) : d.name = name :=
  (ofDeclaration_eq_ok_iff.mp h).2.1

theorem exists_ofDeclaration_iff :
    (∃ d, ofDeclaration name decl = .ok d) ↔
      name ≠ "" ∧ ∀ f ∈ decl.fields.toList,
        f.1 ≠ "" ∧ ∃ read, TypeExpr.readNullable f.2.type = .ok read := by
  simp only [← @Field.exists_ofDeclaration_iff name]
  rw [← exists_mapM_eq_ok_iff, ne_empty_iff]
  unfold ofDeclaration
  by_cases hname : name.isEmpty = true
  · rw [if_pos hname]
    constructor
    · rintro ⟨d, h⟩
      cases h
    · intro h
      exact absurd hname h.1
  · rw [if_neg hname]
    constructor
    · rintro ⟨d, h⟩
      obtain ⟨fields, hfields, -⟩ := bind_eq_ok_iff.mp h
      exact ⟨hname, fields, hfields⟩
    · rintro ⟨-, fields, hfields⟩
      exact ⟨_, bind_eq_ok_iff.mpr ⟨fields, hfields, rfl⟩⟩

end Definition

namespace Registry

/-- Definitions that differ in name from those that are there are registered behind them. -/
theorem foldlM_register_eq_ok_iff {declared : List (String × Declaration)} {r s : Registry}
    (h : (r.names ++ namesOf declared).Nodup) :
    declared.foldlM (fun r (name, decl) => do r.register (← Definition.ofDeclaration name decl)) r =
        .ok s ↔
      ∃ ds, List.Forall₂ (fun p d => Definition.ofDeclaration p.1 p.2 = .ok d) declared ds ∧
        s.toList = r.toList ++ ds := by
  induction declared generalizing r with
  | nil =>
    constructor
    · intro hs
      cases hs
      exact ⟨[], .nil, (List.append_nil _).symm⟩
    · rintro ⟨ds, hds, hs⟩
      cases hds
      rw [List.append_nil] at hs
      rw [Catalogue.ext_toList hs]
      rfl
  | cons p declared ih =>
    obtain ⟨name, decl⟩ := p
    have hfresh : name ∉ r.names := fun hm =>
      (List.nodup_append.mp h).2.2 name hm name List.mem_cons_self rfl
    -- The definition is registered, because no definition so far has its name.
    have hregister {d : Definition} (hd : Definition.ofDeclaration name decl = .ok d) :
        r.register d = .ok (r.insert d) ∧ (r.insert d).names = r.names ++ [name] ∧
          (r.insert d).toList = r.toList ++ [d] := by
      have hname : nameOf d = name := Definition.name_of_ofDeclaration hd
      have hnew : nameOf d ∉ r.names := by rwa [hname]
      refine ⟨?_, ?_, Catalogue.toList_insert_of_not_mem hnew⟩
      · rw [register, if_neg]
        rw [Catalogue.contains_iff]
        exact hnew
      · rw [Catalogue.names_insert, if_neg hnew, hname]
    have hrest {d : Definition} (hd : Definition.ofDeclaration name decl = .ok d) :
        ((r.insert d).names ++ namesOf declared).Nodup := by
      rw [(hregister hd).2.1, List.append_assoc]
      exact h
    rw [List.foldlM_cons, bind_eq_ok_iff]
    simp only [bind_eq_ok_iff]
    constructor
    · rintro ⟨_, ⟨d, hd, hr⟩, hs⟩
      rw [(hregister hd).1] at hr
      cases hr
      obtain ⟨ds, hds, hs⟩ := (ih (hrest hd)).mp hs
      refine ⟨d :: ds, .cons hd hds, ?_⟩
      rw [hs, (hregister hd).2.2, List.append_assoc, List.singleton_append]
    · rintro ⟨_, hall, hs⟩
      cases hall with
      | @cons _ d _ ds hd hds =>
        refine ⟨r.insert d, ⟨d, hd, (hregister hd).1⟩, (ih (hrest hd)).mpr ⟨ds, hds, ?_⟩⟩
        rw [hs, (hregister hd).2.2, List.append_assoc, List.singleton_append]

/-- A loaded registry holds the declared definitions in their order. -/
theorem ofDeclarations_eq_ok_iff {declarations : Declarations} {r : Registry} :
    ofDeclarations declarations = .ok r ↔
      List.Forall₂ (fun p d => Definition.ofDeclaration p.1 p.2 = .ok d)
        declarations.toList r.toList := by
  have hnodup : ((Catalogue.empty : Registry).names ++ namesOf declarations.toList).Nodup :=
    declarations.nodup
  unfold ofDeclarations
  rw [foldlM_register_eq_ok_iff hnodup]
  constructor
  · rintro ⟨ds, hds, hr⟩
    rw [hr]
    exact hds
  · intro h
    exact ⟨r.toList, h, rfl⟩

theorem exists_declared_of_mem {declarations : Declarations} {r : Registry}
    (h : ofDeclarations declarations = .ok r) {d : Definition} (hd : d ∈ r.toList) :
    ∃ p ∈ declarations.toList, Definition.ofDeclaration p.1 p.2 = .ok d :=
  exists_of_forall₂_left (ofDeclarations_eq_ok_iff.mp h).flip d hd

/-- Declarations are loaded when every definition and every field has a name and the type of
every field is read. -/
theorem exists_ofDeclarations_iff {declarations : Declarations} :
    (∃ r, ofDeclarations declarations = .ok r) ↔
      ∀ p ∈ declarations.toList, p.1 ≠ "" ∧ ∀ f ∈ p.2.fields.toList,
        f.1 ≠ "" ∧ ∃ read, TypeExpr.readNullable f.2.type = .ok read := by
  have hall : (∃ r, ofDeclarations declarations = .ok r) ↔
      ∀ p ∈ declarations.toList, ∃ d, Definition.ofDeclaration p.1 p.2 = .ok d := by
    rw [← exists_mapM_eq_ok_iff]
    simp only [mapM_eq_ok_iff, ofDeclarations_eq_ok_iff]
    constructor
    · rintro ⟨r, h⟩
      exact ⟨r.toList, h⟩
    · rintro ⟨ds, h⟩
      have hnodup : (namesOf ds).Nodup :=
        Catalogue.nodup_of_forall₂ h fun _ _ hd => Definition.name_of_ofDeclaration hd
      exact ⟨⟨ds, hnodup⟩, h⟩
  rw [hall]
  simp only [Definition.exists_ofDeclaration_iff]

end Registry

end RecordDefinitions
