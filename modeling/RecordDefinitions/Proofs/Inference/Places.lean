import RecordDefinitions.Declaration.Basic
import RecordDefinitions.Proofs.Inference.Values
import RecordDefinitions.TypeExpr.Reader
import RecordDefinitions.TypeExpr.Writer

/-!
# Where a definition is named

The type of some values stands at several places: before all list types, and inside each of
them, where the items of the lists are. The objects at the place where a definition is named
are the ones that were unified into it.
-/

namespace RecordDefinitions.Inference

/-- The places of a type, each with the values that are found there: the type itself, and the
element type of each list among its alternatives. -/
inductive Place (values : List Document) (type : TypeExpr) : List Document → TypeExpr → Prop
  | here : Place values type values type
  | inside {outer : List Document} {list item : TypeExpr} : Place values type outer list →
    .list item ∈ list.alternatives → Place values type (itemsOf outer) item

/-- A definition is named at a place of a type, for the objects at this place. -/
def NamedAt (values : List Document) (type : TypeExpr) (origin : String × List Sample) : Prop :=
  ∃ inner place, Place values type inner place ∧ .definition origin.1 ∈ place.alternatives ∧
    origin.2 = objectsOf inner

/-- A text stands for a type over some definitions: it is how the type is written, and the type
names none but these definitions. It is read as this type when their names are definition names;
a text with other names may not be read at all. -/
structure StandsFor (names : List String) (text : String) (type : TypeExpr) : Prop where
  written : text = type.text
  known : type.references ⊆ names
  read : (∀ name ∈ names, TypeExpr.isDefinitionName name.toList) → TypeExpr.read text = .ok type

/-- A definition is named in the type of a field, for objects among the values of some samples
at that field. -/
def NamedIn (names : List String) (samples : List Sample)
    (fields : List (String × FieldDeclaration)) (origin : String × List Sample) : Prop :=
  ∃ f ∈ fields, ∃ type : TypeExpr, StandsFor names f.2.type type ∧
    NamedAt (valuesAt samples f.1) type origin

/-- The definitions of a block with the objects that are unified into them: those that are named
from outside, and those that are named in the fields of another one of the block. -/
inductive Unified (block : List (String × Declaration)) (named : String × List Sample → Prop) :
    String × List Sample → Prop
  | named {origin : String × List Sample} : named origin → Unified block named origin
  | inner {owner origin : String × List Sample} {declaration : Declaration} :
    Unified block named owner → (owner.1, declaration) ∈ block →
    NamedIn (namesOf block) owner.2 declaration.fields.toList origin → Unified block named origin

variable {values values' values'' : List Document} {type type' type'' : TypeExpr}
  {origin : String × List Sample}

theorem Place.trans (h : Place values type values' type')
    (h' : Place values' type' values'' type'') : Place values type values'' type'' := by
  induction h' with
  | here => exact h
  | inside _ hitem ih => exact .inside ih hitem

theorem StandsFor.mono {names names' : List String} {text : String} (hsub : names ⊆ names')
    (h : StandsFor names text type) : StandsFor names' text type where
  written := h.written
  known := List.Subset.trans h.known hsub
  read hnames := h.read fun name hname => hnames name (hsub hname)

theorem NamedIn.mono {names names' : List String} {samples : List Sample}
    {fields fields' : List (String × FieldDeclaration)} (hnames : names ⊆ names')
    (hfields : fields ⊆ fields') (h : NamedIn names samples fields origin) :
    NamedIn names' samples fields' origin := by
  obtain ⟨f, hf, type, htext, hnamed⟩ := h
  exact ⟨f, hfields hf, type, htext.mono hnames, hnamed⟩

/-- A definition is one of some members of a type, or is named inside one of them. -/
def NamedBy (values : List Document) (members : List TypeExpr) (origin : String × List Sample) :
    Prop :=
  (.definition origin.1 ∈ members ∧ origin.2 = objectsOf values) ∨
    ∃ item, .list item ∈ members ∧ NamedAt (itemsOf values) item origin

theorem NamedBy.mono {members members' : List TypeExpr} (hsub : members ⊆ members')
    (h : NamedBy values members origin) : NamedBy values members' origin := by
  rcases h with ⟨hname, hobjects⟩ | ⟨item, hitem, h⟩
  · exact Or.inl ⟨hsub hname, hobjects⟩
  · exact Or.inr ⟨item, hsub hitem, h⟩

theorem NamedBy.namedAt (h : NamedBy values type.alternatives origin) :
    NamedAt values type origin := by
  rcases h with ⟨hname, hobjects⟩ | ⟨item, hitem, inner, place, hplace, hname, hobjects⟩
  · exact ⟨values, type, .here, hname, hobjects⟩
  · exact ⟨inner, place, (Place.here.inside hitem).trans hplace, hname, hobjects⟩

namespace Unified

variable {block block' : List (String × Declaration)} {named named' : String × List Sample → Prop}

theorem mono (hblock : block ⊆ block') (hnamed : ∀ origin, named origin → named' origin)
    (h : Unified block named origin) : Unified block' named' origin := by
  induction h with
  | named h => exact .named (hnamed _ h)
  | inner _ hmem hin ih =>
    exact .inner ih (hblock hmem) (hin.mono (List.map_subset _ hblock) (List.Subset.refl _))

/-- What is named in the fields of a definition is unified where the definition is. -/
theorem under {owner : String × List Sample} {declaration : Declaration}
    (howner : Unified block' named' owner) (hmem : (owner.1, declaration) ∈ block')
    (hblock : block ⊆ block')
    (h : Unified block (NamedIn (namesOf block) owner.2 declaration.fields.toList) origin) :
    Unified block' named' origin := by
  have hnames : namesOf block ⊆ namesOf block' := List.map_subset _ hblock
  induction h with
  | named hin => exact .inner howner hmem (hin.mono hnames (List.Subset.refl _))
  | inner _ hmem' hin ih =>
    exact .inner ih (hblock hmem') (hin.mono hnames (List.Subset.refl _))

end Unified

end RecordDefinitions.Inference
