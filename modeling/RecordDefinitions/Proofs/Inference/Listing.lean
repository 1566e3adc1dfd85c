import RecordDefinitions.Inference.Basic
import RecordDefinitions.Proofs.Outcome

/-!
# The definitions that a summary asks for

Naming a summary adds one definition for each object in it. `FieldsListed` says which,
in their order and without the state that naming keeps: a definition stands in front of
those that its own fields ask for, and its fields mention the ones that come with them.
-/

namespace RecordDefinitions.Inference

/-- The declaration with some fields and nothing else. -/
def declarationOf (fields : List (String × FieldDeclaration)) : Declaration :=
  { Declaration.empty with fields := Catalogue.ofList fields }

/-- A name that is made from some key, or from the fallback. -/
def IsNameFor (o : ImportOptions) (fallback name : String) : Prop :=
  ∃ used key, name = Naming.uniqueName used (o.qualified (Naming.typeName key fallback))

mutual

/-- A kind of values has a type, which comes with definitions. -/
inductive KindListed (o : ImportOptions) :
    Evidence → TypeExpr → List (String × Declaration) → Prop
  | scalar (kind : ScalarKind) : KindListed o (.scalar kind) (.scalar kind) []
  | object {fields : List (FieldLabel × List Evidence)} {name : String}
    {declared : List (String × FieldDeclaration)} {inner : List (String × Declaration)} :
    IsNameFor o "Item" name → FieldsListed o fields declared inner →
      KindListed o (.object fields) (.definition name) ((name, declarationOf declared) :: inner)
  | list {items : List Evidence} {types : List TypeExpr} {inner : List (String × Declaration)} :
    KindsListed o items types inner → KindListed o (.list items) (.list (.unionOf types)) inner

inductive KindsListed (o : ImportOptions) :
    List Evidence → List TypeExpr → List (String × Declaration) → Prop
  | nil : KindsListed o [] [] []
  | cons {kind : Evidence} {kinds : List Evidence} {type : TypeExpr} {types : List TypeExpr}
    {first others : List (String × Declaration)} :
    KindListed o kind type first → KindsListed o kinds types others →
      KindsListed o (kind :: kinds) (type :: types) (first ++ others)

/-- Fields have declarations, which come with definitions. -/
inductive FieldsListed (o : ImportOptions) :
    List (FieldLabel × List Evidence) → List (String × FieldDeclaration) →
      List (String × Declaration) → Prop
  | nil : FieldsListed o [] [] []
  | cons {label : FieldLabel} {evidence : List Evidence} {types : List TypeExpr}
    {fields : List (FieldLabel × List Evidence)} {declarations : List (String × FieldDeclaration)}
    {first others : List (String × Declaration)} :
    KindsListed o evidence types first → FieldsListed o fields declarations others →
      FieldsListed o ((label, evidence) :: fields)
        (declared label (.unionOf types) :: declarations) (first ++ others)

end

/-! ## What naming adds -/

namespace Inferred

/-- The taken names are those of the definitions. -/
def Orderly (i : Inferred) : Prop := i.definitions.names = i.usedNames.reverse

/-- Definitions are added behind those that are there. -/
structure Adds (i : Inferred) (block : List (String × Declaration)) (i' : Inferred) : Prop where
  definitions : i'.definitions.toList = i.definitions.toList ++ block
  orderly : i'.Orderly

theorem orderly_empty : empty.Orderly := rfl

theorem Orderly.fresh {i : Inferred} (hi : i.Orderly) {name : String} (h : name ∉ i.usedNames) :
    name ∉ i.definitions.names := by
  rw [hi, List.mem_reverse]
  exact h

end Inferred

/-- A computation adds definitions that stand in a relation to its result. -/
def Lists {α : Type} (x : Infer α) (Rel : α → List (String × Declaration) → Prop) : Prop :=
  ∀ i : Inferred, i.Orderly → ∃ block, Rel (x.run i).1 block ∧ i.Adds block (x.run i).2

namespace Lists

variable {α β : Type}

theorem pure {a : α} {Rel : α → List (String × Declaration) → Prop} (h : Rel a []) :
    Lists (Pure.pure a) Rel :=
  fun _ hi => ⟨[], h, (List.append_nil _).symm, hi⟩

theorem bind {x : Infer α} {f : α → Infer β} {Rel : α → List (String × Declaration) → Prop}
    {Rel' : β → List (String × Declaration) → Prop} (hx : Lists x Rel)
    (hf : ∀ a first, Rel a first → Lists (f a) fun b others => Rel' b (first ++ others)) :
    Lists (x >>= f) Rel' := by
  intro i hi
  obtain ⟨first, ha, hadds⟩ := hx i hi
  obtain ⟨others, hb, hadds'⟩ := hf _ first ha _ hadds.orderly
  refine ⟨first ++ others, hb, ?_, hadds'.orderly⟩
  rw [← List.append_assoc, ← hadds.definitions]
  exact hadds'.definitions

/-- Warnings add no definition. -/
theorem unknownItems (owner field : String) :
    Lists (unknownItems owner field) fun type block => type = .list (.scalar .mixed) ∧ block = [] :=
  fun _ hi => ⟨[], ⟨rfl, rfl⟩, (List.append_nil _).symm, hi⟩

/-- A definition is listed where its name was reserved, in front of those that are added
before it gets its fields. -/
theorem define (o : ImportOptions) (key fallback : String)
    {fields : String → Infer (List (String × FieldDeclaration))}
    {Rel : List (String × FieldDeclaration) → List (String × Declaration) → Prop}
    (h : ∀ name, Lists (fields name) Rel) :
    Lists (do
        let name ← reserve o (Naming.typeName key fallback)
        define name (← fields name)
        return name)
      fun name block => IsNameFor o fallback name ∧ ∃ declared inner,
        Rel declared inner ∧ block = (name, declarationOf declared) :: inner := by
  intro i hi
  let name := Naming.uniqueName i.usedNames (o.qualified (Naming.typeName key fallback))
  let reserved : Inferred :=
    { i with
      usedNames := name :: i.usedNames
      definitions := i.definitions.insert (name, .empty) }
  have hfresh : name ∉ i.definitions.names := hi.fresh (Naming.uniqueName_not_mem _ _)
  have hreserved : reserved.definitions.toList = i.definitions.toList ++ [(name, .empty)] :=
    Catalogue.toList_insert_of_not_mem hfresh
  have horderly : reserved.Orderly := by
    rw [Inferred.Orderly, Catalogue.names, hreserved, namesOf, List.map_append, List.reverse_cons]
    exact congrArg (· ++ [name]) hi
  obtain ⟨inner, hinner, hadds⟩ := h name reserved horderly
  let declared := ((fields name).run reserved).1
  let after := ((fields name).run reserved).2
  have hafter : after.definitions.toList = i.definitions.toList ++ (name, .empty) :: inner := by
    rw [hadds.definitions, hreserved, List.append_assoc, List.singleton_append]
  have hdefined :
      (after.definitions.insert (name, declarationOf declared)).toList =
        i.definitions.toList ++ (name, declarationOf declared) :: inner :=
    Catalogue.toList_insert_of_middle hafter rfl
  refine ⟨(name, declarationOf declared) :: inner,
    ⟨⟨i.usedNames, key, rfl⟩, declared, inner, hinner, rfl⟩, hdefined, ?_⟩
  have hnames : namesOf (after.definitions.insert (name, declarationOf declared)).toList =
      namesOf after.definitions.toList := by
    rw [hdefined, hafter]
    simp [namesOf]
  exact hnames.trans hadds.orderly

end Lists

variable {o : ImportOptions}

mutual

theorem lists_nameFields (owner : String) : (fields : List (FieldLabel × List Evidence)) →
    Lists (nameFields o owner fields) (FieldsListed o fields)
  | [] => .pure .nil
  | (label, evidence) :: rest => by
    rw [nameFields]
    refine (lists_nameKinds owner _ _ evidence).bind fun types first htypes => ?_
    refine (lists_nameFields owner rest).bind fun declarations others hrest => .pure ?_
    rw [List.append_nil]
    exact .cons htypes hrest

theorem lists_nameKinds (owner field hint : String) : (kinds : List Evidence) →
    Lists (nameKinds o owner field hint kinds) (KindsListed o kinds)
  | [] => .pure .nil
  | kind :: rest => by
    rw [nameKinds]
    refine (lists_nameKind owner field hint kind).bind fun type first htype => ?_
    refine (lists_nameKinds owner field hint rest).bind fun types others hrest => .pure ?_
    rw [List.append_nil]
    exact .cons htype hrest

theorem lists_nameKind (owner field hint : String) : (kind : Evidence) →
    Lists (nameKind o owner field hint kind) (KindListed o kind)
  | .scalar kind => by
    rw [nameKind]
    exact .pure (.scalar kind)
  | .object fields => by
    rw [nameKind]
    intro i hi
    obtain ⟨_, ⟨hname, declared, inner, hinner, rfl⟩, hadds⟩ :=
      Lists.define o hint "Item" (fun name => lists_nameFields name fields) i hi
    exact ⟨_, .object hname hinner, hadds⟩
  | .list [] => by
    rw [nameKind]
    intro i hi
    obtain ⟨_, ⟨htype, rfl⟩, hadds⟩ := Lists.unknownItems owner field i hi
    exact ⟨[], htype ▸ .list .nil, hadds⟩
  | .list (item :: items) => by
    rw [nameKind]
    refine (lists_nameKinds owner field _ (item :: items)).bind fun types first htypes => .pure ?_
    rw [List.append_nil]
    exact .list htypes

end

/-- What is inferred is the definition for the samples, and behind it those that its
fields ask for. -/
theorem exists_listed_of_infer {o : ImportOptions} {d : Document} {result : ImportResult}
    (h : infer o d = .ok result) :
    ∃ samples declared inner, samplesOf d = .ok samples ∧
      FieldsListed o (summary samples) declared inner ∧
      result.definitions.toList =
        (o.qualified (Naming.typeName o.rootName "Root"), declarationOf declared) :: inner := by
  obtain ⟨samples, hsamples, hresult⟩ := bind_eq_ok_iff.mp h
  cases hresult
  obtain ⟨_, ⟨-, declared, inner, hinner, rfl⟩, hadds⟩ :=
    Lists.define o o.rootName "Root" (fun name => lists_nameFields name (summary samples))
      .empty Inferred.orderly_empty
  refine ⟨samples, declared, inner, hsamples, hinner, ?_⟩
  have hroot : Naming.uniqueName [] (o.qualified (Naming.typeName o.rootName "Root")) =
      o.qualified (Naming.typeName o.rootName "Root") :=
    Naming.uniqueName_of_not_mem (List.not_mem_nil)
  rw [← hroot]
  exact hadds.definitions

end RecordDefinitions.Inference
