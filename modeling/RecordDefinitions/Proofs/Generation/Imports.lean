import RecordDefinitions.Proofs.Generation.StructFiles

/-!
# Imports

A file of structs imports the type of any document and the type of maps if and only if it uses
them: a field has a type that is written with them at a place which is not inside a union, since a
union is any document as a whole. In the fields and methods that are read of the file the words of
these types occur for no other reason than that a definition has such a word as the name of its
struct.
-/

namespace RecordDefinitions

/-- A type has a property, or an element type of it at any depth; unions are not looked into. -/
def TypeExpr.HasPlace (p : TypeExpr → Prop) : TypeExpr → Prop
  | .list element => p (.list element) ∨ HasPlace p element
  | .map element => p (.map element) ∨ HasPlace p element
  | t => p t

/-- Some field has a type with a property, at a place that is not inside a union. -/
def ViewModel.HasPlace (v : ViewModel) (p : TypeExpr → Prop) : Prop :=
  ∃ d ∈ v.definitions, ∃ f ∈ d.fields, f.type.HasPlace p

theorem TypeExpr.hasPlace_or {p q : TypeExpr → Prop} : (t : TypeExpr) →
    (t.HasPlace (fun inner => p inner ∨ q inner) ↔ t.HasPlace p ∨ t.HasPlace q)
  | .list element | .map element => by
    rw [HasPlace, HasPlace, HasPlace, hasPlace_or element]
    exact or_or_or_comm
  | .scalar _ | .definition _ | .external _ | .union _ => Iff.rfl

theorem ViewModel.hasPlace_or {v : ViewModel} {p q : TypeExpr → Prop} :
    v.HasPlace (fun t => p t ∨ q t) ↔ v.HasPlace p ∨ v.HasPlace q := by
  simp only [HasPlace, TypeExpr.hasPlace_or, and_or_left, exists_or]

/-- A field that holds a map has the type of a map. -/
theorem ViewModel.exists_of_holding_map {decls : Declarations} {v : ViewModel}
    (h : ViewModel.ofDeclarations decls = .ok v) : ∀ d ∈ v.definitions, ∀ f ∈ d.fields,
      f.holding = .map → ∃ element, f.type = .map element := by
  obtain ⟨r, -, hview⟩ := bind_eq_ok_iff.mp h
  obtain ⟨s, -, hv⟩ := bind_eq_ok_iff.mp hview
  cases hv
  intro d hd f hf hmap
  obtain ⟨e, -, rfl⟩ := List.mem_map.mp hd
  obtain ⟨flat, -, rfl⟩ := List.mem_map.mp hf
  have hholding : flat.field.holding = .map := hmap
  refine ⟨flat.field.type, ?_⟩
  rw [FieldView.ofField, Field.containerType, hholding]

namespace Structs

open Generation Text

/-! ## Reader -/

/-- The path that a line imports, if it imports one. -/
def importedPath? (line : List Char) : Option String :=
  ((after? "use ".toList line).bind (before? [';'])).map String.ofList

/-- The paths that a file imports. Imports stand in front of the first empty line; behind it, notes
may hold any lines. -/
def importedPaths (text : List Char) : List String :=
  ((pieces (· == '\n') text).takeWhile fun line => !line.isEmpty).filterMap importedPath?

/-- What is read of the types of fields and of methods. -/
def TypeEntry.types (e : TypeEntry) : List String :=
  e.struct.fields.map (·.type) ++ e.methods.flatMap fun w => [w.parameters, w.result]

/-- What is read of the bodies of methods. -/
def TypeEntry.bodies (e : TypeEntry) : List String := e.methods.flatMap (·.body)

/-- A word stands in some texts of a file. -/
def Prints (file : List TypeEntry) (texts : TypeEntry → List String) (word : String) : Prop :=
  ∃ e ∈ file, ∃ text ∈ texts e, word ∈ printedWords text

/-- The types that are imported where they are used. -/
inductive ImportedType where
  /-- The type of any document. -/
  | value
  | map
deriving DecidableEq

namespace ImportedType

def path : ImportedType → String
  | value => "serde_json::Value"
  | map => "std::collections::BTreeMap"

def word : ImportedType → String
  | value => "Value"
  | map => "BTreeMap"

/-- The types that are written with the word: unions, classes from elsewhere and open kinds are any
document. -/
def IsFor : ImportedType → TypeExpr → Prop
  | value, .scalar kind => kind ∉ [ScalarKind.int, .float, .string, .bool]
  | value, .external _ | value, .union _ => True
  | map, .map _ => True
  | _, _ => False

/-- Whether the type of a member is written with the word. -/
def isUsedIn : ImportedType → MemberType → Bool
  | value => MemberType.usesValue
  | map => MemberType.usesMap

/-! ## Types -/

variable {names : TypeNames} (i : ImportedType)

theorem isUsedIn_ofType : (t : TypeExpr) → (∀ name ∈ t.references, (names.lookup name).isSome) →
    (i.isUsedIn (.ofType names t) ↔ t.HasPlace i.IsFor)
  | .scalar kind, _ => by
    cases i <;> cases kind <;>
      simp [isUsedIn, MemberType.ofType, MemberType.ofScalar, MemberType.usesValue,
        MemberType.usesMap, TypeExpr.HasPlace, IsFor]
  | .external _, _ | .union _, _ => by
    cases i <;>
      simp [isUsedIn, MemberType.ofType, MemberType.usesValue, MemberType.usesMap,
        TypeExpr.HasPlace, IsFor]
  | .definition name, hknown => by
    obtain ⟨word, hword⟩ := Option.isSome_iff_exists.mp (hknown name (List.mem_singleton.mpr rfl))
    cases i <;>
      simp [isUsedIn, MemberType.ofType, hword, MemberType.usesValue, MemberType.usesMap,
        TypeExpr.HasPlace, IsFor]
  | .list element, hknown => by
    have hsame : i.isUsedIn (.ofType names (.list element)) = i.isUsedIn (.ofType names element) := by
      cases i <;> rfl
    have hnot : ¬ i.IsFor (.list element) := by cases i <;> exact id
    rw [hsame, isUsedIn_ofType element hknown, TypeExpr.HasPlace, or_iff_right hnot]
  | .map element, hknown => by
    have ih := isUsedIn_ofType element hknown
    cases i with
    | value => exact ih.trans (or_iff_right id).symm
    | map => exact iff_of_true rfl (Or.inl trivial)

/-- The word occurs in the text of a type for the types that it is there for, and where it is the
name of the struct for a definition. -/
theorem word_mem_usesOf_iff : (t : TypeExpr) →
    (i.word ∈ (usesOf names t).map (·.word) ↔
      t.HasPlace fun inner =>
        i.IsFor inner ∨ ∃ name, inner = .definition name ∧ structName names name = i.word)
  | .scalar kind => by
    cases i <;> cases kind <;> simp [usesOf, scalarWord, word, TypeExpr.HasPlace, IsFor]
  | .external _ | .union _ => by
    cases i <;> simp [usesOf, word, TypeExpr.HasPlace, IsFor]
  | .definition name => by
    cases i <;> simp [usesOf, word, TypeExpr.HasPlace, IsFor, eq_comm]
  | .list element => by
    have ih := word_mem_usesOf_iff element
    cases i <;> simpa [usesOf, word, TypeExpr.HasPlace, IsFor] using ih
  | .map element => by
    have ih := word_mem_usesOf_iff element
    cases i with
    | value => simpa [usesOf, word, TypeExpr.HasPlace, IsFor] using ih
    | map => simp [usesOf, word, TypeExpr.HasPlace, IsFor]

end ImportedType

/-! ## Texts without a word -/

/-- The texts of a method behind its name. -/
def Method.texts (w : Method) : List String := w.parameters :: w.result :: w.body

/-- A word does not occur in a text. -/
def Lacks (word text : String) : Prop := word ∉ printedWords text

instance (word text : String) : Decidable (Lacks word text) := inferInstanceAs (Decidable (_ ∉ _))

namespace Lacks

variable {word head text glue rest tail : String}

theorem append_left (hgap : head.toList.getLast?.any isGap) (hhead : Lacks word head)
    (hrest : Lacks word rest) : Lacks word (head ++ rest) := by
  rw [Lacks, printedWords_append_left hgap, List.mem_append, not_or]
  exact ⟨hhead, hrest⟩

theorem append_right (hgap : tail.toList.head?.any isGap) (htext : Lacks word text)
    (htail : Lacks word tail) : Lacks word (text ++ tail) := by
  rw [Lacks, printedWords_append_right hgap, List.mem_append, not_or]
  exact ⟨htext, htail⟩

theorem append (hgap : separates glue) (htext : Lacks word text) (hrest : Lacks word rest) :
    Lacks word (text ++ glue ++ rest) := by
  rw [Lacks, printedWords_append hgap, List.mem_append, not_or]
  exact ⟨htext, hrest⟩

end Lacks

/-- A member whose type is not written with the word of an imported type. A map is, so it is none. -/
structure Member.LacksType (i : ImportedType) (m : Member) : Prop where
  identifier : IsIdentifier m.identifier
  stored : Lacks i.word m.storedText
  element : Lacks i.word m.type.element.text
  holding : i = .map → m.view.holding ≠ .map

namespace Member.LacksType

variable {i : ImportedType} {m : Member} (h : m.LacksType i)
include h

theorem lacks_identifier : Lacks i.word m.identifier := by
  have hplain : isPlain m.identifier := by
    obtain ⟨⟨⟨c, rest, hword, -⟩, hall⟩, -⟩ := h.identifier
    rw [isPlain, hword, List.isEmpty_cons, Bool.not_false, Bool.true_and, ← hword,
      List.all_eq_true]
    intro d hd
    have hsnake := hall d hd
    simp only [Naming.isSnake, isGap, Char.isAlphanum, Char.isAlpha, Bool.or_eq_true,
      Bool.not_eq_true', Bool.not_eq_false'] at hsnake ⊢
    tauto
  rw [Lacks, printedWords_of_isPlain hplain, List.mem_singleton]
  intro hsame
  obtain ⟨⟨⟨c, rest, hword, hc⟩, -⟩, -⟩ := h.identifier
  rw [← hsame] at hword
  cases i <;> cases hword <;> cases hc

theorem place : Lacks i.word m.place :=
  .append_left (by decide) (by cases i <;> decide) h.lacks_identifier

theorem collectionPlace {empty : String}
    (hempty : Lacks i.word (".get_or_insert_with(" ++ empty ++ ")")) :
    Lacks i.word (m.collectionPlace empty) := by
  have htext : m.place ++ ".get_or_insert_with(" ++ empty ++ ")" =
      m.place ++ (".get_or_insert_with(" ++ empty ++ ")") := by
    simp only [String.append_assoc]
  rw [Member.collectionPlace, htext]
  split
  · exact h.place.append_right (by simp [isGap]) hempty
  · exact h.place

theorem whenPresent {name action : String} (hname : Lacks i.word ("if let Some(" ++ name))
    (haction : Lacks i.word action) (hgap : action.toList.head?.any isGap)
    (hinner : Lacks i.word ("    " ++ name ++ action)) :
    ∀ line ∈ m.whenPresent name action, Lacks i.word line := by
  rw [Member.whenPresent]
  split
  · simp only [List.forall_mem_cons]
    refine ⟨?_, hinner, by cases i <;> decide, List.forall_mem_nil _⟩
    exact (hname.append (by decide) h.place).append_right (by decide) (by cases i <;> decide)
  · exact List.forall_mem_singleton.mpr (h.place.append_right hgap haction)

theorem getter : ∀ text ∈ m.getter.texts, Lacks i.word text := by
  simp only [Method.texts, Member.getter, List.forall_mem_cons]
  refine ⟨by cases i <;> decide, ?_, ?_, List.forall_mem_nil _⟩
  · exact .append_left (by decide) (by cases i <;> decide) h.stored
  · exact .append_left (by decide) (by cases i <;> decide) h.place

/-- The line that puts a value in place. -/
theorem placing : Lacks i.word (m.place ++ " = value;") :=
  h.place.append_right (by decide) (by cases i <;> decide)

theorem setter : ∀ text ∈ m.setter.texts, Lacks i.word text := by
  simp only [Method.texts, Member.setter, List.forall_mem_cons]
  refine ⟨?_, by cases i <;> decide, h.placing, by cases i <;> decide, List.forall_mem_nil _⟩
  exact .append_left (by decide) (by cases i <;> decide) h.stored

theorem wither : ∀ text ∈ m.wither.texts, Lacks i.word text := by
  simp only [Method.texts, Member.wither, List.forall_mem_cons]
  refine ⟨?_, by cases i <;> decide, h.placing, by cases i <;> decide, List.forall_mem_nil _⟩
  exact .append_left (by decide) (by cases i <;> decide) h.stored

theorem adder {isMap : Bool} (hmap : isMap → i = .value) :
    ∀ text ∈ (m.adder isMap).texts, Lacks i.word text := by
  simp only [Method.texts, Member.adder, List.forall_mem_cons]
  cases isMap with
  | true =>
    obtain rfl := hmap rfl
    refine ⟨?_, by decide, ?_, by decide, List.forall_mem_nil _⟩
    · exact .append_left (by decide) (by decide) h.element
    · exact (h.collectionPlace (by decide)).append_right (by decide) (by decide)
  | false =>
    refine ⟨?_, by cases i <;> decide, ?_, by cases i <;> decide, List.forall_mem_nil _⟩
    · exact .append_left (by decide) (by cases i <;> decide) h.element
    · refine (h.collectionPlace ?_).append_right (by decide) ?_ <;> cases i <;> decide

theorem remover (isMap : Bool) : ∀ text ∈ (m.remover isMap).texts, Lacks i.word text := by
  simp only [Method.texts, Member.remover, List.forall_mem_cons, List.forall_mem_append]
  cases isMap with
  | true =>
    simp only [if_true]
    refine ⟨by cases i <;> decide, by cases i <;> decide, ?_, by cases i <;> decide, List.forall_mem_nil _⟩
    refine h.whenPresent ?_ ?_ (by decide) ?_ <;> cases i <;> decide
  | false =>
    refine ⟨?_, by cases i <;> decide, ?_, by cases i <;> decide, List.forall_mem_nil _⟩
    · exact .append_left (by decide) (by cases i <;> decide)
        (.append_left (by decide) (by cases i <;> decide) h.element)
    · refine h.whenPresent ?_ ?_ (by decide) ?_ <;> cases i <;> decide

theorem methods (immutable : Bool) :
    ∀ w ∈ m.methods immutable, ∀ text ∈ w.texts, Lacks i.word text := by
  rw [Member.methods]
  cases immutable with
  | true => simpa using ⟨h.getter, h.wither⟩
  | false =>
    cases hholding : m.view.holding with
    | single => simpa using ⟨h.getter, h.setter, h.wither⟩
    | list =>
      have hadder := h.adder fun hmap => absurd hmap Bool.false_ne_true
      simpa using ⟨h.getter, h.setter, h.wither, hadder, h.remover false⟩
    | map =>
      have hvalue : i = .value := by
        cases i with
        | value => rfl
        | map => exact absurd hholding (h.holding rfl)
      simpa using ⟨h.getter, h.setter, h.wither, h.adder fun _ => hvalue, h.remover true⟩

end Member.LacksType

/-! ## Members of definitions -/

variable {names : TypeNames} {i : ImportedType}

theorem mem_storedUses_iff (f : FieldView) : i.word ∈ (storedUses names f).map (·.word) ↔
    i.word ∈ (usesOf names f.type).map (·.word) := by
  have hoption : "Option" ≠ i.word := by cases i <;> decide
  rw [storedUses, List.map_append, List.mem_append, or_iff_right]
  split
  · simpa using hoption.symm
  · exact List.not_mem_nil

/-- The words for one element are among those for the collection. -/
theorem printedWords_element_subset
    (hnames : ∀ word ∈ typeWords names, Naming.isTypeName word.toList) (t : TypeExpr) :
    printedWords (MemberType.ofType names t).element.text ⊆ (usesOf names t).map (·.word) := by
  rw [← printedWords_text hnames t]
  cases t with
  | scalar kind => cases kind <;> exact List.Subset.refl _
  | definition name =>
    rw [MemberType.ofType]
    cases names.lookup name <;> exact List.Subset.refl _
  | external path => exact List.Subset.refl _
  | union members => exact List.Subset.refl _
  | list element =>
    rw [printedWords_text hnames, usesOf, List.map_cons, ← printedWords_text hnames element]
    exact List.subset_cons_self _ _
  | map element =>
    rw [printedWords_text hnames, usesOf, List.map_cons, List.map_cons,
      ← printedWords_text hnames element]
    exact List.subset_cons_of_subset _ (List.subset_cons_self _ _)

/-- The type of a member is written with the words for the type of its field. -/
theorem Member.lacksType_of_mem_ofFields
    (hnames : ∀ word ∈ typeWords names, Naming.isTypeName word.toList) {used : List String}
    {fs : List FieldView} {m : Member} (h : m ∈ Member.ofFields names used fs)
    (hholding : m.view.holding = .map → ∃ element, m.view.type = .map element)
    (hword : i.word ∉ (usesOf names m.view.type).map (·.word)) : m.LacksType i := by
  have hidentifier := isIdentifier_of_mem_ofFields h
  obtain ⟨f, -, identifier, rfl⟩ := exists_of_mem_ofFields h
  refine ⟨hidentifier, ?_, ?_, ?_⟩
  · rwa [Lacks, printedWords_stored hnames, mem_storedUses_iff]
  · exact fun helement => hword (printedWords_element_subset hnames f.type helement)
  · rintro rfl hmap
    obtain ⟨element, htype⟩ := hholding hmap
    refine hword ?_
    rw [htype]
    exact List.mem_cons_self

/-! ## Files -/

/-- What is read of a struct is printed for its members and methods. -/
theorem mem_of_mem_item {s : Struct} {text : String} (h : text ∈ s.item.types ++ s.item.bodies) :
    (∃ m ∈ s.members, m.storedText = text) ∨ ∃ w ∈ s.methods, text ∈ w.texts := by
  rcases List.mem_append.mp h with htypes | hbodies
  · rcases List.mem_append.mp htypes with hfield | hmethod
    · obtain ⟨_, hentry, rfl⟩ := List.mem_map.mp hfield
      obtain ⟨m, hm, rfl⟩ := List.mem_map.mp hentry
      exact Or.inl ⟨m, hm, rfl⟩
    · obtain ⟨_, hentry, htext⟩ := List.mem_flatMap.mp hmethod
      obtain ⟨w, hw, rfl⟩ := List.mem_map.mp hentry
      have hhead : [w.parameters, w.result] ⊆ w.texts := by simp [Method.texts]
      exact Or.inr ⟨w, hw, hhead htext⟩
  · obtain ⟨_, hentry, htext⟩ := List.mem_flatMap.mp hbodies
    obtain ⟨w, hw, rfl⟩ := List.mem_map.mp hentry
    exact Or.inr ⟨w, hw, .tail _ (.tail _ htext)⟩

section Words

variable (hnames : ∀ word ∈ typeWords names, Naming.isTypeName word.toList) {d : DefinitionView}
include hnames

/-- A word in a struct comes with a field, whose type is written with it. -/
theorem exists_field_of_mem_item
    (hholding : ∀ f ∈ d.fields, f.holding = .map → ∃ element, f.type = .map element)
    {text : String}
    (htext : text ∈ (Struct.ofDefinition names d).item.types ++ (Struct.ofDefinition names d).item.bodies)
    (hword : i.word ∈ printedWords text) :
    ∃ f ∈ d.fields, i.word ∈ (usesOf names f.type).map (·.word) := by
  have hviews : (Member.ofFields names [] d.fields).map (·.view) = d.fields :=
    Member.map_view_ofFields names [] d.fields
  suffices ∃ m ∈ Member.ofFields names [] d.fields,
      i.word ∈ (usesOf names m.view.type).map (·.word) by
    obtain ⟨m, hm, hmem⟩ := this
    exact ⟨m.view, hviews ▸ List.mem_map_of_mem hm, hmem⟩
  rcases mem_of_mem_item htext with ⟨m, hm, rfl⟩ | ⟨w, hw, htext⟩
  · obtain ⟨f, -, identifier, hmember⟩ := Member.exists_of_mem_ofFields hm
    refine ⟨m, hm, ?_⟩
    rw [hmember, printedWords_stored hnames, mem_storedUses_iff] at hword
    rwa [hmember]
  · obtain ⟨m, hm, hw⟩ := List.mem_flatMap.mp hw
    refine ⟨m, hm, by_contra fun hnone => ?_⟩
    have hview : m.view ∈ d.fields := hviews ▸ List.mem_map_of_mem hm
    have hlacks := Member.lacksType_of_mem_ofFields hnames hm (hholding _ hview) hnone
    exact hlacks.methods d.immutable w hw text htext hword

/-- A field whose type is written with a word is printed with it. -/
theorem exists_type_of_field {f : FieldView} (hf : f ∈ d.fields)
    (hword : i.word ∈ (usesOf names f.type).map (·.word)) :
    ∃ text ∈ (Struct.ofDefinition names d).item.types, i.word ∈ printedWords text := by
  have hviews : (Member.ofFields names [] d.fields).map (·.view) = d.fields :=
    Member.map_view_ofFields names [] d.fields
  rw [← hviews] at hf
  obtain ⟨m, hm, rfl⟩ := List.mem_map.mp hf
  have hentry : m.entry ∈ (Struct.ofDefinition names d).item.struct.fields := List.mem_map_of_mem hm
  refine ⟨m.storedText, List.mem_append_left _ (List.mem_map_of_mem (f := FieldEntry.type) hentry), ?_⟩
  obtain ⟨f, -, identifier, hmember⟩ := Member.exists_of_mem_ofFields hm
  rw [hmember] at hword ⊢
  rwa [printedWords_stored hnames, mem_storedUses_iff]

end Words

/-- The texts of a file have a word if and only if some field is written with it. This is so for the
types alone, and with the bodies of methods as well. -/
theorem prints_iff {v : ViewModel} (hnames : ∀ word ∈ typeWords (Target.rust.typeNames v),
      Naming.isTypeName word.toList)
    (hholding : ∀ d ∈ v.definitions, ∀ f ∈ d.fields,
      f.holding = .map → ∃ element, f.type = .map element)
    {texts : TypeEntry → List String} (htypes : ∀ e, e.types ⊆ texts e)
    (hall : ∀ e, texts e ⊆ e.types ++ e.bodies) :
    Prints ((structs v).map Struct.item) texts i.word ↔ ∃ d ∈ v.definitions, ∃ f ∈ d.fields,
      i.word ∈ (usesOf (Target.rust.typeNames v) f.type).map (·.word) := by
  constructor
  · rintro ⟨_, he, text, htext, hword⟩
    obtain ⟨s, hs, rfl⟩ := List.mem_map.mp he
    obtain ⟨d, hd, rfl⟩ := List.mem_map.mp hs
    exact ⟨d, hd, exists_field_of_mem_item hnames (hholding d hd) (hall _ htext) hword⟩
  · rintro ⟨d, hd, f, hf, hword⟩
    obtain ⟨text, htext, hword⟩ := exists_type_of_field hnames hf hword
    exact ⟨_, List.mem_map_of_mem (List.mem_map_of_mem hd), text, htypes _ htext, hword⟩

/-- A line in front of the first empty one. -/
theorem importedPaths_line {line : List Char} (hne : line ≠ []) (h : '\n' ∉ line)
    (rest : List Char) :
    importedPaths (line ++ '\n' :: rest) = (importedPath? line).toList ++ importedPaths rest := by
  rw [importedPaths, pieces_separator_append (by simp), pieces_of_not_mem h, List.singleton_append,
    List.takeWhile_cons_of_pos (by simpa using hne), List.filterMap_cons]
  cases importedPath? line <;> rfl

theorem importedPaths_use {line path : String} (hline : line = "use " ++ path ++ ";\n")
    (h : '\n' ∉ path.toList) (rest : String) :
    importedPaths (line ++ rest).toList = path :: importedPaths rest.toList := by
  have htext : ("use " ++ path ++ ";\n" ++ rest).toList =
      ("use ".toList ++ (path.toList ++ [';'])) ++ '\n' :: rest.toList := by simp
  have hpath : importedPath? ("use ".toList ++ (path.toList ++ [';'])) = some path := by
    rw [importedPath?, after?_append, Option.bind_some, before?_append, Option.map_some,
      String.ofList_toList]
  rw [hline, htext, importedPaths_line (by simp) (by simpa using h), hpath]
  rfl

theorem importedPaths_use_if {line path : String} (hline : line = "use " ++ path ++ ";\n")
    (h : '\n' ∉ path.toList) (condition : Bool) (rest : String) :
    importedPaths ((if condition then line else "") ++ rest).toList =
      (if condition then [path] else []) ++ importedPaths rest.toList := by
  cases condition with
  | true => exact importedPaths_use hline h rest
  | false => rw [if_neg Bool.false_ne_true, if_neg Bool.false_ne_true, String.empty_append,
      List.nil_append]

/-- A line that imports nothing is passed over. -/
theorem importedPaths_of_none {line : String} (hne : line.toList ≠ []) (h : '\n' ∉ line.toList)
    (hnone : importedPath? line.toList = none) (rest : String) :
    importedPaths (line ++ ("\n" ++ rest)).toList = importedPaths rest.toList := by
  have htext : (line ++ ("\n" ++ rest)).toList = line.toList ++ '\n' :: rest.toList := by simp
  rw [htext, importedPaths_line hne h, hnone]
  rfl

theorem importedPaths_banner (rest : String) :
    importedPaths (banner "Rust" ++ rest).toList = importedPaths rest.toList := by
  have hlines : banner "Rust" ++ rest = "// Generated by dto-forge (Rust codegen)." ++ ("\n" ++
      ("// WARNING: This file is generated. Do not edit manually." ++ ("\n" ++ rest))) := by
    rw [← String.append_assoc, ← String.append_assoc, ← String.append_assoc]
    exact congrArg (· ++ rest) (by decide)
  rw [hlines, importedPaths_of_none (by decide) (by decide) (by decide),
    importedPaths_of_none (by decide) (by decide) (by decide)]

/-- A file imports what is derived, and the types that are written in it. -/
theorem importedPaths_imports (types : List MemberType) (rest : String) :
    importedPaths (imports types ++ "\n" ++ rest).toList =
      "serde::\x7bDeserialize, Serialize\x7d" ::
        ([ImportedType.value, .map].filter fun i => types.any i.isUsedIn).map ImportedType.path := by
  have hserde : ∀ rest : String,
      importedPaths ("use serde::\x7bDeserialize, Serialize\x7d;\n" ++ rest).toList =
        "serde::\x7bDeserialize, Serialize\x7d" :: importedPaths rest.toList :=
    importedPaths_use (by decide) (by decide)
  have hvalue : ∀ (condition : Bool) (rest : String),
      importedPaths ((if condition then "use serde_json::Value;\n" else "") ++ rest).toList =
        (if condition then [ImportedType.value.path] else []) ++ importedPaths rest.toList :=
    importedPaths_use_if (by decide) (by decide)
  have hmap : ∀ (condition : Bool) (rest : String),
      importedPaths ((if condition then "use std::collections::BTreeMap;\n" else "") ++ rest).toList =
        (if condition then [ImportedType.map.path] else []) ++ importedPaths rest.toList :=
    importedPaths_use_if (by decide) (by decide)
  have hlast : importedPaths ("\n" ++ rest).toList = [] := by
    rw [String.toList_append]
    rfl
  unfold imports
  simp only [String.append_assoc, hserde, hvalue, hmap, hlast, List.filter_cons, List.filter_nil,
    ImportedType.isUsedIn]
  cases types.any (·.usesValue) <;> cases types.any (·.usesMap) <;> rfl

/-- A type is imported where it is written. -/
theorem path_mem_importedPaths_iff (v : ViewModel) : i.path ∈ importedPaths (write v).toList ↔
    ∃ d ∈ v.definitions, ∃ f ∈ d.fields,
      i.isUsedIn (.ofType (nameTypes reservedWords.contains [] v.definitions) f.type) := by
  have hserde : i.path ≠ "serde::\x7bDeserialize, Serialize\x7d" := by cases i <;> decide
  have hpath (j : ImportedType) : j.path = i.path ↔ j = i := by
    cases i <;> cases j <;> decide
  have hboth : i = .value ∨ i = .map ∨ i ∈ [] := by cases i <;> decide
  rw [write, importedPaths_banner]
  split
  · next hempty =>
    have hnone : importedPaths emptyNote.toList = [] := by decide
    rw [hnone, List.isEmpty_iff.mp hempty]
    simp
  · rw [importedPaths_imports]
    simp only [List.mem_cons, hserde, false_or, List.mem_map, List.mem_filter, hpath,
      exists_eq_right, hboth, true_and, structs, List.flatMap_map, Struct.ofDefinition,
      Member.map_type_ofFields, List.any_flatMap, List.any_map, List.any_eq_true,
      Function.comp_apply]

/-! ## Views -/

/-- A file imports a type if and only if a field is written with it at a place that is not inside a
union. In the types that are read of the printed fields and methods its word stands just then, or
where it is the name of the struct for a definition, and the bodies of methods have it just then
too. -/
theorem path_mem_importedPaths_iff_hasPlace {decls : Declarations} {v : ViewModel}
    (h : ViewModel.ofDeclarations decls = .ok v) (i : ImportedType) :
    (i.path ∈ importedPaths (write v).toList ↔ v.HasPlace i.IsFor) ∧
      ∃ file, readFile (write v).toList = some file ∧
        file.map (·.struct.name) = v.definitions.map (Target.rust.typeName v ·.name) ∧
        ∀ texts ∈ [TypeEntry.types, fun e => e.types ++ e.bodies],
          (Prints file texts i.word ↔ i.path ∈ importedPaths (write v).toList ∨
            v.HasPlace fun t =>
              ∃ name, t = .definition name ∧ Target.rust.typeName v name = i.word) := by
  have hclosed := ViewModel.closed_of_ofDeclarations h
  have himported : i.path ∈ importedPaths (write v).toList ↔ v.HasPlace i.IsFor := by
    rw [path_mem_importedPaths_iff, ViewModel.HasPlace]
    refine exists_congr fun d => and_congr_right fun hd => exists_congr fun f =>
      and_congr_right fun hf => i.isUsedIn_ofType f.type fun name hname => ?_
    obtain ⟨e, he, rfl⟩ := hclosed.references d hd f hf name hname
    exact Option.isSome_iff_exists.mpr (exists_lookup_of_mem he reservedWords.contains [])
  refine ⟨himported, _, readFile_write hclosed, ?_, fun texts htexts => ?_⟩
  · rw [structs, List.map_map, List.map_map]
    rfl
  · have hbetween : (∀ e, e.types ⊆ texts e) ∧ ∀ e, texts e ⊆ e.types ++ e.bodies := by
      rcases List.mem_pair.mp htexts with rfl | rfl
      · exact ⟨fun e => List.Subset.refl _, fun e => List.subset_append_left _ _⟩
      · exact ⟨fun e => List.subset_append_left _ _, fun e => List.Subset.refl _⟩
    rw [himported, ← ViewModel.hasPlace_or,
      prints_iff (Target.isTypeName_typeNames hclosed .rust) (ViewModel.exists_of_holding_map h)
        hbetween.1 hbetween.2]
    refine exists_congr fun d => and_congr_right fun _ => exists_congr fun f =>
      and_congr_right fun _ => ?_
    exact i.word_mem_usesOf_iff f.type

/-- A map inside a union, and a class that is called like the type of maps. -/
def shelves : Declarations := Catalogue.ofList
  [("BTreeMap", ⟨none, false, Catalogue.ofList [("label", .ofType "string")]⟩),
    ("Shelf", ⟨none, false, Catalogue.ofList
      [("kind", .ofType "array<string, int>|string"), ("trees", .ofType "BTreeMap[]")]⟩)]

theorem path_mem_importedPaths_iff_hasPlace_shelves :
    ∃ v, ViewModel.ofDeclarations shelves = .ok v ∧
      ∃ file, readFile (write v).toList = some file ∧
        v.HasPlace ImportedType.value.IsFor ∧
          "serde_json::Value" ∈ importedPaths (write v).toList ∧
          Prints file TypeEntry.types "Value" ∧
        ¬ v.HasPlace ImportedType.map.IsFor ∧
          "std::collections::BTreeMap" ∉ importedPaths (write v).toList ∧
          Prints file (fun e => e.types ++ e.bodies) "BTreeMap" := by
  obtain ⟨v, hv, htypes, hname⟩ : ∃ v, ViewModel.ofDeclarations shelves = .ok v ∧
      (v.definitions.flatMap fun d => d.fields.map (·.type)) =
        [.scalar .string, .union [.map (.scalar .int), .scalar .string],
          .list (.definition "BTreeMap")] ∧
      Target.rust.typeName v "BTreeMap" = "BTreeMap" :=
    exists_ok_of_decide (by decide +kernel)
  have hplace (p : TypeExpr → Prop) : v.HasPlace p ↔
      ∃ t ∈ v.definitions.flatMap fun d => d.fields.map (·.type), t.HasPlace p := by
    simp only [ViewModel.HasPlace, List.mem_flatMap, List.mem_map]
    constructor
    · rintro ⟨d, hd, f, hf, hp⟩
      exact ⟨f.type, ⟨d, hd, f, hf, rfl⟩, hp⟩
    · rintro ⟨-, ⟨d, hd, f, hf, rfl⟩, hp⟩
      exact ⟨d, hd, f, hf, hp⟩
  rw [htypes] at hplace
  have hany : v.HasPlace ImportedType.value.IsFor :=
    (hplace _).mpr ⟨_, .tail _ (.head _), trivial⟩
  have hnone : ¬ v.HasPlace ImportedType.map.IsFor := by
    simp [hplace, TypeExpr.HasPlace, ImportedType.IsFor]
  obtain ⟨hvalue, file, hfile, -, hprintsValue⟩ := path_mem_importedPaths_iff_hasPlace hv .value
  obtain ⟨hmap, others, hothers, -, hprintsMap⟩ := path_mem_importedPaths_iff_hasPlace hv .map
  obtain rfl : file = others := Option.some.inj (hfile.symm.trans hothers)
  refine ⟨v, hv, file, hfile, hany, hvalue.mpr hany,
    (hprintsValue _ (.head _)).mpr (.inl (hvalue.mpr hany)), hnone, fun h => hnone (hmap.mp h),
    (hprintsMap _ (.tail _ (.head _))).mpr (.inr ?_)⟩
  exact (hplace _).mpr ⟨_, .tail _ (.tail _ (.head _)), .inr ⟨_, rfl, hname⟩⟩

end Structs

end RecordDefinitions
