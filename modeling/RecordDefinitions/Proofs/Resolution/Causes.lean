import Mathlib.Data.List.Chain
import RecordDefinitions.Proofs.Resolution.Memory

/-!
# What a failure of resolving says

Resolving fails in four ways, and each failure names what it is about. What it says is true of
the registry: the names of a cycle lead from one to the next and back, a missing name is not
registered and stands where the failure says, and an override that is refused breaks the rule
for overrides with the field of the nearest ancestor that declares one.
-/

namespace RecordDefinitions

/-! ## Circles -/

/-- Names that lead from one to the next, where the first is also the last and no other name
occurs twice. -/
structure Circle (leads : String → String → Prop) (names : List String) : Prop where
  long : 2 ≤ names.length
  closed : names.head? = names.getLast?
  nodup : names.dropLast.Nodup
  chain : names.IsChain leads

/-- A path that leads back to a name on it holds a circle from that name on, wherever the name
stands. -/
theorem circle_cycleAt {leads : String → String → Prop} {path : List String} {name : String}
    (hnodup : path.Nodup) (hchain : (path ++ [name]).IsChain leads) (hm : name ∈ path) :
    Circle leads (cycleAt path name) := by
  obtain ⟨before, after, rfl, hfresh⟩ := List.eq_append_cons_of_mem hm
  have hcycle : cycleAt (before ++ name :: after) name = name :: after ++ [name] := by
    have hbefore : ∀ other ∈ before, decide (other ≠ name) = true := by
      intro other hother
      exact decide_eq_true fun hsame => hfresh (hsame ▸ hother)
    rw [cycleAt, List.dropWhile_append_of_pos hbefore, List.dropWhile_cons_of_neg (by simp)]
  rw [hcycle]
  constructor
  · simp
  · rw [List.getLast?_concat]
    rfl
  · rw [List.dropLast_concat]
    exact (List.nodup_append.mp hnodup).2.1
  · rw [List.append_assoc] at hchain
    exact hchain.right_of_append

theorem isChain_concat {leads : String → String → Prop} {path : List String} {name next : String}
    (hchain : (path ++ [name]).IsChain leads) (hnext : leads name next) :
    (path ++ [name] ++ [next]).IsChain leads := by
  rw [List.append_assoc]
  exact List.isChain_append_cons_cons.mpr ⟨hchain, hnext, .singleton next⟩

theorem nodup_concat {path : List String} {name : String} (hnodup : path.Nodup)
    (hfresh : name ∉ path) : (path ++ [name]).Nodup := by
  rw [← List.concat_eq_append]
  exact hnodup.concat hfresh

namespace Registry

variable {r : Registry}

/-- An own field that may not replace the field that the nearest ancestor declares. -/
structure Misfit (r : Registry) (d : Definition) (own : Field) (ancestor : Definition)
    (base : Field) : Prop where
  declares : own ∈ d.fields.toList
  nearest : ∃ parent, d.parent = some parent ∧ r.DeclaredBy own.name parent ancestor
  replaced : ancestor.fields.find? own.name = some base
  unfit : ¬ (base.holding = own.holding ∧ (base.nullable → own.nullable) ∧
    TypeExpr.accepts r.lineage own.type base.type)

end Registry

/-- What a failure says about a registry. The other failures say nothing about one. -/
def Failure.TrueOf (r : Registry) : Failure → Prop
  | .cyclicInheritance names => Circle r.IsParent names
  | .cyclicShape names => Circle r.Mentions names
  | .unknownDefinition name (some site) =>
    ¬ r.contains name ∧ ∃ d ∈ r.toList, (d.parent = some name ∧ site = d.name) ∨
      ∃ f ∈ d.fields.toList, name ∈ f.type.references ∧ site = d.name ++ "." ++ f.name
  | .incompatibleOverride definition field ancestor inherited overriding =>
    ∃ d ∈ r.toList, ∃ own, ∃ a ∈ r.toList, ∃ base, r.Misfit d own a base ∧
      d.name = definition ∧ own.name = field ∧ a.name = ancestor ∧
      base.described = inherited ∧ own.described = overriding
  | _ => False

/-! ## Chains of parents -/

namespace Registry

variable {r : Registry}

/-- One step of climbing fails, or the rest of the way does. -/
theorem climb_error_cases {steps : Nat} {chain : List String} {d : Definition} {e : Failure}
    (h : r.climb steps chain d = .error e) : ∃ parent, d.parent = some parent ∧
      ((parent ∈ chain ∧ e = .cyclicInheritance (cycleAt chain parent)) ∨
        (r.find? parent = none ∧ e = .unknownDefinition parent (some d.name)) ∨
        ∃ p left, parent ∉ chain ∧ r.find? parent = some p ∧ steps = left + 1 ∧
          r.climb left (chain ++ [parent]) p = .error e) := by
  cases hp : d.parent with
  | none =>
    rw [climb_root hp] at h
    cases h
  | some parent =>
    refine ⟨parent, rfl, ?_⟩
    unfold climb at h
    simp only [hp] at h
    split at h
    · rename_i hm
      cases h
      exact Or.inl ⟨hm, rfl⟩
    · rename_i hm
      split at h
      · rename_i hf
        cases h
        exact Or.inr (Or.inl ⟨hf, rfl⟩)
      · rename_i p left hf
        exact Or.inr (Or.inr ⟨p, left, hm, hf, rfl, h⟩)
      · cases h

/-- The names so far are kept without repetitions, and each of them is followed by its parent. -/
theorem trueOf_of_climb {steps : Nat} {before : List String} {d : Definition} {e : Failure}
    (hd : r.find? d.name = some d) (hnodup : (before ++ [d.name]).Nodup)
    (hchain : (before ++ [d.name]).IsChain r.IsParent)
    (h : r.climb steps (before ++ [d.name]) d = .error e) : e.TrueOf r := by
  induction steps using Nat.strongRecOn generalizing before d with
  | ind steps ih =>
    obtain ⟨parent, hp, hcases⟩ := climb_error_cases h
    have hnext := isChain_concat hchain (isParent_of_find? hd hp)
    rcases hcases with ⟨hm, rfl⟩ | ⟨hf, rfl⟩ | ⟨p, left, hm, hf, rfl, hrest⟩
    · exact circle_cycleAt hnodup hnext hm
    · refine ⟨by simp [Catalogue.contains, hf], d, (Catalogue.find?_eq_some_iff.mp hd).1, ?_⟩
      exact Or.inl ⟨hp, rfl⟩
    · obtain rfl := name_of_find? hf
      exact ih left (Nat.lt_succ_self left) hf (nodup_concat hnodup hm) hnext hrest

theorem trueOf_of_chain {name : String} {e : Failure} (hname : r.contains name)
    (h : r.chain name = .error e) : e.TrueOf r := by
  obtain ⟨d, hd⟩ := Option.isSome_iff_exists.mp hname
  obtain rfl := name_of_find? hd
  rw [chain, get_of_find? hd] at h
  have hclimb : r.climb r.size [d.name] d = .error e := bind_pure_eq_error_iff.mp h
  have hstart : ([] ++ [d.name]).Nodup := List.nodup_singleton d.name
  exact trueOf_of_climb hd hstart (.singleton d.name) hclimb

end Registry

/-! ## Overrides -/

namespace FlatFields

variable {descends : TypeExpr.Lineage} {fields : FlatFields}

theorem exists_of_declare_error {definition : String} {own : Field} {e : Failure}
    (h : fields.declare descends definition own = .error e) : ∃ base,
      fields.find? own.name = some base ∧ ¬ own.mayReplace descends base.field ∧
      e = .incompatibleOverride definition own.name base.declaredIn base.field.described
        own.described := by
  unfold declare at h
  split at h
  · cases h
  · rename_i base hbase
    split at h
    · cases h
    · rename_i hunfit
      cases h
      exact ⟨base, hbase, hunfit, rfl⟩

/-- The own fields before the one that is refused have other names, so it is refused because of
an inherited one. -/
theorem exists_of_extend_error {d : Definition} {e : Failure}
    (h : fields.extend descends d = .error e) : ∃ own ∈ d.fields.toList, ∃ base,
      fields.find? own.name = some base ∧ ¬ own.mayReplace descends base.field ∧
      e = .incompatibleOverride d.name own.name base.declaredIn base.field.described
        own.described := by
  obtain ⟨before, own, after, declared, hsplit, hbefore, hown⟩ := foldlM_eq_error_iff.mp h
  obtain ⟨base, hbase, hunfit, rfl⟩ := exists_of_declare_error hown
  have hnodup : (namesOf before ++ own.name :: namesOf after).Nodup := by
    have hnames : (namesOf d.fields.toList).Nodup := d.fields.nodup
    rw [hsplit, namesOf, List.map_append] at hnames
    exact hnames
  obtain ⟨hnodup, -, hdiffer⟩ := List.nodup_append.mp hnodup
  have hnone : findNamed? own.name before = none := by
    rw [← Option.not_isSome_iff_eq_none, isSome_findNamed?_iff]
    intro hm
    exact hdiffer _ hm _ List.mem_cons_self rfl
  rw [find?_declareAll hnodup own.name hbefore, hnone, Option.map_none, Option.none_or,
    find?_inherit] at hbase
  obtain ⟨inherited, hinherited, rfl⟩ := Option.map_eq_some_iff.mp hbase
  refine ⟨own, ?_, inherited, hinherited, hunfit, rfl⟩
  rw [hsplit]
  simp

end FlatFields

namespace Registry

variable {r : Registry}

/-- The declarer of a field of a definition has the field itself. -/
theorem Flattened.mem_declarer {name : String} {f : Field} {e : Definition}
    (h : r.Flattened name f) (he : r.DeclaredBy f.name name e) : f ∈ e.fields.toList := by
  induction h with
  | @own name d f hd hf =>
    cases he with
    | own hd' _ =>
      rw [hd, Option.some.injEq] at hd'
      rwa [← hd']
    | inherited hd' _ hnew _ =>
      rw [hd, Option.some.injEq] at hd'
      subst hd'
      exact absurd (Catalogue.contains_iff.mpr (List.mem_map_of_mem hf)) hnew
  | @inherited name parent d f hd hp _ hnew ih =>
    cases he with
    | own hd' hown =>
      rw [hd, Option.some.injEq] at hd'
      subst hd'
      exact absurd hown hnew
    | inherited hd' hp' _ he =>
      rw [hd, Option.some.injEq] at hd'
      subst hd'
      rw [hp, Option.some.injEq] at hp'
      subst hp'
      exact ih he

/-- A flattened field stands among the own fields of the definition that it says declares it. -/
theorem exists_declarer_of_flatFields {name : String} {fields : FlatFields}
    (h : r.flatFields name = .ok fields) {flat : FlatField} (hflat : flat ∈ fields.toList) :
    ∃ d ∈ r.toList, r.DeclaredBy flat.field.name name d ∧ d.name = flat.declaredIn ∧
      flat.field ∈ d.fields.toList := by
  obtain ⟨d, hd, hname⟩ := declaredBy_of_flatFields h hflat
  have hfound := FlatFields.field?_eq_some_iff.mpr ⟨flat, hflat, rfl, rfl⟩
  have hown := ((flattenedBy_of_flatFields h _ _).mp hfound).1.mem_declarer hd
  exact ⟨d, (Catalogue.find?_eq_some_iff.mp hd.find?).1, hd, hname, hown⟩

/-- Flattening goes up to the root and comes down again, so a failure is one of the chain or one
of an override on it. -/
theorem trueOf_of_flatFields {name : String} {e : Failure} (hname : r.contains name)
    (h : r.flatFields name = .error e) : e.TrueOf r := by
  cases hchain : r.chain name with
  | error e' =>
    have hsame : e' = e := by
      rw [flatFields, hchain] at h
      exact Except.error.inj h
    exact trueOf_of_chain hname (hsame ▸ hchain)
  | ok names =>
    obtain ⟨ancestors, hasc, -⟩ := chain_eq_ok_iff.mp hchain
    clear hname hchain
    induction hasc with
    | root hd hp =>
      rw [flatFields_root hd hp] at h
      obtain ⟨own, _, base, hbase, _⟩ := FlatFields.exists_of_extend_error h
      cases hbase
    | @step name parent d rest hd hp hrest ih =>
      rw [flatFields_step hd hp hrest, bind_eq_error_iff] at h
      rcases h with hparent | ⟨fields, hfields, hextend⟩
      · exact ih hparent
      · obtain ⟨own, hown, base, hbase, hunfit, rfl⟩ := FlatFields.exists_of_extend_error hextend
        obtain ⟨hm, hsame⟩ := Catalogue.find?_eq_some_iff.mp hbase
        have hsame : base.field.name = own.name := hsame
        obtain ⟨a, ha, hnearest, hdeclared, hfield⟩ := exists_declarer_of_flatFields hfields hm
        rw [hsame] at hnearest
        rw [Field.mayReplace_iff] at hunfit
        have hmisfit : r.Misfit d own a base.field := {
          declares := hown
          nearest := ⟨parent, hp, hnearest⟩
          replaced := Catalogue.find?_eq_some_iff.mpr ⟨hfield, hsame⟩
          unfit := hunfit }
        exact ⟨d, (Catalogue.find?_eq_some_iff.mp hd).1, own, a, ha, base.field, hmisfit, rfl, rfl,
          hdeclared, rfl, rfl⟩

end Registry

/-! ## Shapes -/

section Types

variable {r : Registry} {expand : String → Except Failure Shape} {site : String}

mutual

/-- A type has no shape because of a name in it: the name is not registered, or it has none. -/
theorem TypeExpr.exists_of_shapeM_error : (t : TypeExpr) → {e : Failure} →
    TypeExpr.shapeM r expand site t = .error e → ∃ n ∈ t.references,
      (¬ r.contains n ∧ e = .unknownDefinition n (some site)) ∨
        r.contains n ∧ expand n = .error e
  | .scalar _, _, h => by cases h
  | .external _, _, h => by cases h
  | .list element, _, h =>
    TypeExpr.exists_of_shapeM_error element (bind_pure_eq_error_iff.mp h)
  | .map element, _, h =>
    TypeExpr.exists_of_shapeM_error element (bind_pure_eq_error_iff.mp h)
  | .definition name, e, h => by
    refine ⟨name, List.mem_singleton.mpr rfl, ?_⟩
    unfold TypeExpr.shapeM at h
    by_cases hknown : r.contains name
    · rw [if_pos hknown] at h
      exact Or.inr ⟨hknown, h⟩
    · rw [if_neg hknown] at h
      cases h
      exact Or.inl ⟨hknown, rfl⟩
  | .union members, _, h =>
    TypeExpr.exists_of_shapesM_error members (bind_pure_eq_error_iff.mp h)

theorem TypeExpr.exists_of_shapesM_error : (ts : List TypeExpr) → {e : Failure} →
    TypeExpr.shapesM r expand site ts = .error e → ∃ n ∈ TypeExpr.memberReferences ts,
      (¬ r.contains n ∧ e = .unknownDefinition n (some site)) ∨
        r.contains n ∧ expand n = .error e
  | [], _, h => by cases h
  | t :: ts, e, h => by
    rw [TypeExpr.shapesM, bind_eq_error_iff] at h
    rcases h with h | ⟨_, _, h⟩
    · obtain ⟨n, hn, hcause⟩ := TypeExpr.exists_of_shapeM_error t h
      exact ⟨n, List.mem_append_left _ hn, hcause⟩
    · rw [bind_pure_eq_error_iff] at h
      obtain ⟨n, hn, hcause⟩ := TypeExpr.exists_of_shapesM_error ts h
      exact ⟨n, List.mem_append_right _ hn, hcause⟩

end

theorem FlatFields.exists_of_shapeM_error {name : String} {fields : FlatFields} {e : Failure}
    (h : FlatFields.shapeM r expand name fields = .error e) :
    ∃ flat ∈ fields.toList, ∃ n ∈ flat.field.type.references,
      (¬ r.contains n ∧
        e = .unknownDefinition n (some (flat.declaredIn ++ "." ++ flat.field.name))) ∨
      r.contains n ∧ expand n = .error e := by
  obtain ⟨flat, hflat, hfield⟩ := exists_of_mapM_error (bind_pure_eq_error_iff.mp h)
  obtain ⟨n, hn, hcause⟩ :=
    TypeExpr.exists_of_shapeM_error flat.field.containerType (bind_pure_eq_error_iff.mp hfield)
  rw [Field.references_containerType] at hn
  exact ⟨flat, hflat, n, hn, hcause⟩

end Types

namespace Registry

variable {r : Registry}

/-- Each name on the path mentions the next one, and the last one mentions the name that is
met. -/
theorem trueOf_of_expand {steps : Nat} {path : List String} {name : String} {e : Failure}
    (hname : r.contains name) (hmet : r.Met steps path name)
    (hchain : (path ++ [name]).IsChain r.Mentions) (h : r.expand steps path name = .error e) :
    e.TrueOf r := by
  induction steps generalizing path name with
  | zero => exact absurd hmet Met.not_zero
  | succ steps ih =>
    by_cases hm : name ∈ path
    · rw [expand_of_mem hm] at h
      cases h
      exact circle_cycleAt hmet.nodup hchain hm
    · rw [expand_succ hm, bind_eq_error_iff] at h
      rcases h with hflat | ⟨fields, hfields, hshape⟩
      · exact trueOf_of_flatFields hname hflat
      · obtain ⟨flat, hflat, n, hn, hcause⟩ := FlatFields.exists_of_shapeM_error hshape
        have hmentions := mentions_of_mem hfields hflat hn
        rcases hcause with ⟨hunknown, rfl⟩ | ⟨hknown, hexpand⟩
        · obtain ⟨d, hd, _, hdeclared, hown⟩ := exists_declarer_of_flatFields hfields hflat
          refine ⟨hunknown, d, hd, Or.inr ⟨flat.field, hown, hn, ?_⟩⟩
          rw [hdeclared]
        · exact ih hknown (hmet.next hm hname hmentions) (isChain_concat hchain hmentions) hexpand

/-- A registered definition that is not resolved has a true reason. -/
theorem trueOf_of_resolved {d : Definition} {e : Failure} (hd : d ∈ r.toList)
    (h : r.resolved d.name = .error e) : e.TrueOf r := by
  have hname : r.contains d.name := Catalogue.contains_of_find? (find?_of_mem hd)
  rw [resolved, get_of_find? (find?_of_mem hd)] at h
  rcases bind_eq_error_iff.mp h with h | ⟨_, _, h⟩
  · cases h
  rcases bind_eq_error_iff.mp h with hchain | ⟨_, _, h⟩
  · exact trueOf_of_chain hname hchain
  rcases bind_eq_error_iff.mp h with hflat | ⟨_, _, h⟩
  · exact trueOf_of_flatFields hname hflat
  · exact trueOf_of_expand hname (met_start d.name) (.singleton d.name)
      (bind_pure_eq_error_iff.mp h)

end Registry

/-- Where resolving a registry fails, what the failure says is true of the registry. -/
theorem trueOf_of_resolve {r : Registry} {e : Failure} (h : resolve r = .error e) :
    e.TrueOf r := by
  rw [resolve_eq, map_eq_error_iff] at h
  obtain ⟨d, hd, hresolved⟩ := exists_of_mapM_error h
  exact Registry.trueOf_of_resolved hd hresolved

/-- Parents go round, and the way there starts off the circle. -/
def roundParents : Registry := Catalogue.ofList
  [⟨"Leaf", some "Stem", false, .empty⟩, ⟨"Stem", some "Root", false, .empty⟩,
    ⟨"Root", some "Stem", false, .empty⟩]

/-- A node holds itself through a field that it inherits. -/
def selfHeld : Registry := Catalogue.ofList
  [⟨"Tree", none, false, Catalogue.ofList [.ofType "top" (.definition "Node")]⟩,
    ⟨"Node", some "Linked", false, .empty⟩,
    ⟨"Linked", none, false, Catalogue.ofList [.ofType "next" (.list (.definition "Node"))]⟩]

/-- The definition that inherits a field of a missing type comes first. -/
def dangling : Registry := Catalogue.ofList
  [⟨"Order", some "Record", false, .empty⟩,
    ⟨"Record", none, false, Catalogue.ofList [.ofType "owner" (.definition "Person")]⟩]

/-- A field drops null that the ancestor after the next allows. -/
def narrowed : Registry := Catalogue.ofList
  [⟨"Van", some "Car", false, Catalogue.ofList [.ofType "seats" (.scalar .int)]⟩,
    ⟨"Car", some "Vehicle", false, .empty⟩,
    ⟨"Vehicle", none, false,
      Catalogue.ofList [{ Field.ofType "seats" (.scalar .int) with nullable := true }]⟩]

theorem exists_failure {r : Registry} {text : String} {P : Failure → Prop}
    (h : (match resolve r with
      | .error e => e.message == text
      | .ok _ => false) = true) (hp : ∀ e, resolve r = .error e → P e) :
    ∃ e, resolve r = .error e ∧ e.message = text ∧ P e := by
  cases hr : resolve r with
  | error e =>
    rw [hr] at h
    exact ⟨e, rfl, beq_iff_eq.mp h, hp e hr⟩
  | ok s =>
    rw [hr] at h
    cases h

theorem trueOf_of_resolve_each :
    (∃ e, resolve roundParents = .error e ∧
      e.message = "cyclic inheritance: Stem -> Root -> Stem" ∧ e.TrueOf roundParents) ∧
    (∃ e, resolve selfHeld = .error e ∧ e.message = "cyclic shape: Node -> Node" ∧
      e.TrueOf selfHeld) ∧
    (∃ e, resolve dangling = .error e ∧
      e.message = "unknown definition 'Person' (referenced from Record.owner)" ∧
      e.TrueOf dangling) ∧
    ∃ e, resolve narrowed = .error e ∧
      e.message = "incompatible override of 'Van.seats': " ++
        "'int' does not accept inherited 'int|null' from 'Vehicle'" ∧ e.TrueOf narrowed := by
  refine ⟨?_, ?_, ?_, ?_⟩
  · exact exists_failure (by decide +kernel) fun e he => trueOf_of_resolve he
  · exact exists_failure (by decide +kernel) fun e he => trueOf_of_resolve he
  · exact exists_failure (by decide +kernel) fun e he => trueOf_of_resolve he
  · exact exists_failure (by decide +kernel) fun e he => trueOf_of_resolve he

end RecordDefinitions
