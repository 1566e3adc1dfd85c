import RecordDefinitions.Proofs.Generation.Printed
import RecordDefinitions.Proofs.Resolution.Sets

/-!
# Captured words

The words that the two kinds of files use, in their declarations and in the types of fields. Each
use of the name of a type stands for the definition that the model names. A word that comes from
elsewhere stands for a definition as soon as a class has it as its name: only the words of the
languages themselves are kept out of the way of the names of classes.
-/

namespace RecordDefinitions

open Generation

/-! ## Structs -/

namespace Structs

/-- The word for a scalar kind. -/
def scalarWord : ScalarKind → String
  | .int => "i64"
  | .float => "f64"
  | .string => "String"
  | .bool => "bool"
  | .mixed | .object | .callable | .resource | .iterable => "Value"

/-- The words in the type of a value, with what they are there for. -/
def usesOf (names : TypeNames) : TypeExpr → List Use
  | .scalar kind => [⟨scalarWord kind, none⟩]
  | .list element => ⟨"Vec", none⟩ :: usesOf names element
  | .map element => ⟨"BTreeMap", none⟩ :: ⟨"String", none⟩ :: usesOf names element
  | .definition name => [⟨structName names name, some name⟩]
  | .external _ | .union _ => [⟨"Value", none⟩]

/-- The words in the type of a field. -/
def storedUses (names : TypeNames) (f : FieldView) : List Use :=
  (if f.nullable || !f.required then [⟨"Option", none⟩] else []) ++ usesOf names f.type

variable {names : TypeNames}

theorem text_definition (names : TypeNames) (name : String) :
    (MemberType.ofType names (.definition name)).text = structName names name := by
  rw [MemberType.ofType, structName]
  cases names.lookup name <;> rfl

/-- The text of a type consists of these words. -/
theorem printedWords_text (hnames : ∀ word ∈ typeWords names, Naming.isTypeName word.toList) :
    (t : TypeExpr) → printedWords (MemberType.ofType names t).text = (usesOf names t).map (·.word)
  | .scalar kind => by
    have htext : (MemberType.ofType names (.scalar kind)).text = scalarWord kind := by
      cases kind <;> rfl
    rw [htext]
    exact printedWords_of_isPlain (by cases kind <;> decide)
  | .external _ | .union _ => by
    have hword : isPlain "Value" := by decide
    exact printedWords_of_isPlain hword
  | .definition name => by
    rw [text_definition]
    exact printedWords_of_isPlain (isPlain_typeName hnames (by decide) name)
  | .list element => by
    have htext : (MemberType.ofType names (.list element)).text =
        "Vec" ++ "<" ++ ((MemberType.ofType names element).text ++ ">") := by
      rw [← String.append_assoc]
      rfl
    rw [htext, printedWords_applied (by decide), printedWords_text hnames element]
    rfl
  | .map element => by
    have htext : (MemberType.ofType names (.map element)).text = "BTreeMap" ++ "<" ++
        ("String" ++ ", " ++ (MemberType.ofType names element).text ++ ">") := by
      rw [← String.append_assoc, ← String.append_assoc]
      rfl
    have hkey : printedWords "String" = ["String"] := printedWords_of_isPlain (by decide)
    rw [htext, printedWords_applied (by decide), printedWords_append (by decide), hkey,
      printedWords_text hnames element]
    rfl

theorem printedWords_stored (hnames : ∀ word ∈ typeWords names, Naming.isTypeName word.toList)
    (f : FieldView) (identifier : String) :
    printedWords (Member.storedText ⟨identifier, f, .ofType names f.type, f.nullable || !f.required⟩) =
      (storedUses names f).map (·.word) := by
  simp only [Member.storedText, storedUses, List.map_append]
  rw [← printedWords_text hnames f.type]
  split
  · have htext : "Option<" ++ (MemberType.ofType names f.type).text ++ ">" =
        "Option" ++ "<" ++ ((MemberType.ofType names f.type).text ++ ">") := by
      rw [← String.append_assoc]
      rfl
    rw [htext, printedWords_applied (by decide)]
    rfl
  · rfl

/-- The texts of the types of members consist of the words for their fields. -/
theorem printedWords_members (hnames : ∀ word ∈ typeWords names, Naming.isTypeName word.toList)
    (used : List String) (fs : List FieldView) :
    (Member.ofFields names used fs).map (fun m => printedWords m.storedText) =
      fs.map fun f => (storedUses names f).map (·.word) := by
  induction fs generalizing used with
  | nil => rfl
  | cons f fs ih => rw [Member.ofFields, List.map_cons, List.map_cons, ih, printedWords_stored hnames]

/-- The words of a type from elsewhere become names of types only as names of classes. -/
theorem fits_of_mem_usesOf {use : Use} :
    (t : TypeExpr) → use ∈ usesOf names t →
      use.Fits reservedWords.contains names "Value" (· ∈ t.references)
  | .scalar kind, h => by
    rw [List.mem_singleton.mp h]
    exact .helper (by cases kind <;> decide)
  | .external _, h | .union _, h => by
    rw [List.mem_singleton.mp h]
    exact .helper (by decide)
  | .definition name, h => by
    rw [List.mem_singleton.mp h]
    exact .type (List.mem_singleton.mpr rfl)
  | .list element, h => by
    rcases List.mem_cons.mp h with rfl | h
    · exact .helper (by decide)
    · exact fits_of_mem_usesOf element h
  | .map element, h => by
    rcases List.mem_cons.mp h with rfl | h
    · exact .helper (by decide)
    · rcases List.mem_cons.mp h with rfl | h
      · exact .helper (by decide)
      · exact fits_of_mem_usesOf element h

end Structs

/-! ## Interfaces -/

namespace Interfaces

/-- The words for a scalar kind. The function type names its parameter. -/
def scalarWords : ScalarKind → List String
  | .int | .float => ["number"]
  | .string => ["string"]
  | .bool => ["boolean"]
  | .object => ["Record", "string", "unknown"]
  | .callable => ["args", "unknown", "unknown"]
  | .iterable => ["Iterable", "unknown"]
  | .mixed | .resource => ["unknown"]

mutual

/-- The words in the type of a member, with what they are there for. -/
def usesOf (names : TypeNames) : TypeExpr → List Use
  | .scalar kind => (scalarWords kind).map (⟨·, none⟩)
  | .list element => ⟨"Array", none⟩ :: usesOf names element
  | .map element => ⟨"Record", none⟩ :: ⟨"string", none⟩ :: usesOf names element
  | .definition name => [⟨interfaceName names name, some name⟩]
  | .external _ => [⟨"unknown", none⟩]
  | .union members => usesOfMembers names members

def usesOfMembers (names : TypeNames) : List TypeExpr → List Use
  | [] => []
  | t :: ts => usesOf names t ++ usesOfMembers names ts

end

/-- The words in the type of a member. -/
def memberUses (names : TypeNames) (f : FieldView) : List Use :=
  usesOf names f.type ++ if f.nullable then [⟨"null", none⟩] else []

variable {names : TypeNames}

theorem text_definition (names : TypeNames) (name : String) :
    (PropertyType.ofType names (.definition name)).text = interfaceName names name := by
  rw [PropertyType.ofType, PropertyType.ofName, interfaceName]
  cases names.lookup name <;> rfl

mutual

/-- The text of a type consists of these words. -/
theorem printedWords_text (hnames : ∀ word ∈ typeWords names, Naming.isTypeName word.toList) :
    (t : TypeExpr) →
      printedWords (PropertyType.ofType names t).text = (usesOf names t).map (·.word)
  | .scalar kind => by
    have hwords : printedWords (PropertyType.ofScalar kind).text = scalarWords kind := by
      cases kind <;> decide
    rw [PropertyType.ofType, hwords, usesOf, List.map_map]
    exact (List.map_id _).symm
  | .external _ => by
    have hword : isPlain "unknown" := by decide
    exact printedWords_of_isPlain hword
  | .definition name => by
    rw [text_definition]
    exact printedWords_of_isPlain (isPlain_typeName hnames (by decide) name)
  | .list element => by
    have htext : (PropertyType.ofType names (.list element)).text =
        "Array" ++ "<" ++ ((PropertyType.ofType names element).text ++ ">") := by
      rw [← String.append_assoc]
      rfl
    rw [htext, printedWords_applied (by decide), printedWords_text hnames element]
    rfl
  | .map element => by
    have htext : (PropertyType.ofType names (.map element)).text = "Record" ++ "<" ++
        ("string" ++ ", " ++ (PropertyType.ofType names element).text ++ ">") := by
      rw [← String.append_assoc, ← String.append_assoc]
      rfl
    have hkey : printedWords "string" = ["string"] := printedWords_of_isPlain (by decide)
    rw [htext, printedWords_applied (by decide), printedWords_append (by decide), hkey,
      printedWords_text hnames element]
    rfl
  | .union members => by
    have htext : (PropertyType.ofType names (.union members)).text =
        " | ".intercalate (PropertyType.memberTexts (PropertyType.ofTypes names members)) := rfl
    rw [htext, printedWords_intercalate (by decide), printedWords_memberTexts hnames members]
    rfl

theorem printedWords_memberTexts
    (hnames : ∀ word ∈ typeWords names, Naming.isTypeName word.toList) :
    (ts : List TypeExpr) →
      (PropertyType.memberTexts (PropertyType.ofTypes names ts)).flatMap printedWords =
        (usesOfMembers names ts).map (·.word)
  | [] => rfl
  | t :: ts => by
    have hparens : printedWords ("(" ++ (PropertyType.ofType names t).text ++ ")") =
        printedWords (PropertyType.ofType names t).text := by
      have htext : "(" ++ (PropertyType.ofType names t).text ++ ")" =
          "" ++ "(" ++ ((PropertyType.ofType names t).text ++ ")" ++ "") := by
        rw [String.append_empty, String.empty_append, String.append_assoc]
      rw [htext, printedWords_append (by decide), printedWords_append (by decide),
        printedWords_empty, List.append_nil, List.nil_append]
    rw [PropertyType.ofTypes, PropertyType.memberTexts, List.flatMap_cons, usesOfMembers,
      List.map_append, printedWords_memberTexts hnames ts, ← printedWords_text hnames t]
    split
    · rw [hparens]
    · rfl

end

mutual

/-- The words of a type from elsewhere become names of types only as names of classes. -/
theorem fits_of_mem_usesOf {use : Use} :
    (t : TypeExpr) → use ∈ usesOf names t →
      use.Fits reservedWords.contains names "unknown" (· ∈ t.references)
  | .scalar kind, h => by
    obtain ⟨word, hword, rfl⟩ := List.mem_map.mp h
    have hall : ∀ word ∈ scalarWords kind, isHelper reservedWords.contains word := by
      cases kind <;> decide
    exact .helper (hall word hword)
  | .external _, h => by
    rw [List.mem_singleton.mp h]
    exact .helper (by decide)
  | .definition name, h => by
    rw [List.mem_singleton.mp h]
    exact .type (List.mem_singleton.mpr rfl)
  | .list element, h => by
    rcases List.mem_cons.mp h with rfl | h
    · exact .helper (by decide)
    · exact fits_of_mem_usesOf element h
  | .map element, h => by
    rcases List.mem_cons.mp h with rfl | h
    · exact .helper (by decide)
    · rcases List.mem_cons.mp h with rfl | h
      · exact .helper (by decide)
      · exact fits_of_mem_usesOf element h
  | .union members, h => fits_of_mem_usesOfMembers members h

theorem fits_of_mem_usesOfMembers {use : Use} :
    (ts : List TypeExpr) → use ∈ usesOfMembers names ts →
      use.Fits reservedWords.contains names "unknown" (· ∈ TypeExpr.memberReferences ts)
  | [], h => by cases h
  | t :: ts, h => by
    rcases List.mem_append.mp h with h | h
    · exact (fits_of_mem_usesOf t h).imp fun _ => List.mem_append_left _
    · exact (fits_of_mem_usesOfMembers ts h).imp fun _ => List.mem_append_right _

end

theorem printedWords_typeText
    (hnames : ∀ word ∈ typeWords names, Naming.isTypeName word.toList) (immutable : Bool)
    (f : FieldView) :
    printedWords (Property.ofField names immutable f).typeText =
      (memberUses names f).map (·.word) := by
  have htext : (Property.ofField names immutable f).typeText =
      (PropertyType.ofType names f.type).text ++ if f.nullable then " | null" else "" := rfl
  rw [htext, memberUses, List.map_append, ← printedWords_text hnames f.type]
  split
  · have hnull : (PropertyType.ofType names f.type).text ++ " | null" =
        (PropertyType.ofType names f.type).text ++ " | " ++ "null" := by
      rw [String.append_assoc]
      rfl
    have hword : isPlain "null" := by decide
    rw [hnull, printedWords_append (by decide), printedWords_of_isPlain hword]
    rfl
  · rw [String.append_empty]
    exact (List.append_nil _).symm

end Interfaces

/-! ## Files -/

/-- Class names are type names, and parents and the definitions that types name are there. -/
structure ViewModel.Closed (v : ViewModel) : Prop where
  classes : ∀ d ∈ v.definitions, Naming.isTypeName d.className.toList
  parents : ∀ d ∈ v.definitions, ∀ p, d.parent = some p → ∃ e ∈ v.definitions, e.name = p
  references : ∀ d ∈ v.definitions, ∀ f ∈ d.fields, ∀ name ∈ f.type.references,
    ∃ e ∈ v.definitions, e.name = name

theorem isTypeName_className (d : ResolvedDefinition) :
    Naming.isTypeName (DefinitionView.ofResolved d).className.toList := by
  have hclass (name : String) : Naming.isTypeName (splitName name).2.toList := by
    have hfallback : Naming.isTypeName "Definition".toList := rfl
    rw [splitName]
    split
    · exact Naming.isTypeName_typeName _ hfallback
    · exact Naming.isTypeName_typeName _ hfallback
  exact hclass d.name

theorem ViewModel.closed_of_resolve {r : Registry} {s : ResolvedSet} (hs : resolve r = .ok s) :
    (ViewModel.ofResolved s).Closed := by
  have hmem {e : ResolvedDefinition} (he : e ∈ s.toList) :
      DefinitionView.ofResolved e ∈ (ViewModel.ofResolved s).definitions :=
    List.mem_map_of_mem he
  constructor
  · intro d hd
    obtain ⟨e, -, rfl⟩ := List.mem_map.mp hd
    exact isTypeName_className e
  · intro d hd p hp
    obtain ⟨e, he, rfl⟩ := List.mem_map.mp hd
    obtain ⟨parent, hparent, rfl⟩ := exists_parent_of_mem hs he hp
    exact ⟨_, hmem hparent, rfl⟩
  · intro d hd f hf name hname
    obtain ⟨e, he, rfl⟩ := List.mem_map.mp hd
    obtain ⟨flat, hflat, rfl⟩ := List.mem_map.mp hf
    obtain ⟨other, hother, rfl⟩ := exists_reference_of_mem hs he hflat hname
    exact ⟨_, hmem hother, rfl⟩

theorem ViewModel.closed_of_ofDeclarations {decls : Declarations} {v : ViewModel}
    (h : ViewModel.ofDeclarations decls = .ok v) : v.Closed := by
  obtain ⟨r, -, hview⟩ := bind_eq_ok_iff.mp h
  obtain ⟨s, hs, hv⟩ := bind_eq_ok_iff.mp hview
  cases hv
  exact closed_of_resolve hs

namespace Target

def reservedWords : Target → List String
  | .typescript => Interfaces.reservedWords
  | .rust => Structs.reservedWords

/-- The names of the types in a file. -/
def typeNames (t : Target) (v : ViewModel) : TypeNames :=
  nameTypes t.reservedWords.contains [] v.definitions

/-- The name of the type for a definition. -/
def typeName (t : Target) (v : ViewModel) (name : String) : String :=
  match t with
  | .typescript => Interfaces.interfaceName (t.typeNames v) name
  | .rust => Structs.structName (t.typeNames v) name

/-- The fields that the type for a definition lists. -/
def listed (t : Target) (d : DefinitionView) : List FieldView :=
  match t with
  | .typescript => if d.parent.isSome then d.ownFields else d.fields
  | .rust => d.fields

/-- The texts of the types of the members that are listed. -/
def typeTexts (t : Target) (v : ViewModel) (d : DefinitionView) : List String :=
  match t with
  | .typescript => (Interfaces.Interface.ofDefinition (t.typeNames v) d).members.map (·.typeText)
  | .rust => (Structs.Struct.ofDefinition (t.typeNames v) d).members.map (·.storedText)

/-- The words in the type of a field, with what they are there for. -/
def typeUses (t : Target) (v : ViewModel) (f : FieldView) : List Use :=
  match t with
  | .typescript => Interfaces.memberUses (t.typeNames v) f
  | .rust => Structs.storedUses (t.typeNames v) f

/-- The other words from elsewhere. -/
def helperWords (t : Target) (d : DefinitionView) : List String :=
  match t with
  | .typescript => Interfaces.helperWords d
  | .rust => Structs.helperWords d

/-- The words for types in a file, with what they are there for: names of definitions and of
parents, and what the types of fields and the declarations need. -/
def uses (t : Target) (v : ViewModel) : List Use :=
  v.definitions.flatMap fun d =>
    ⟨t.typeName v d.name, some d.name⟩ :: (d.parent.map fun p => ⟨t.typeName v p, some p⟩).toList
      ++ (t.helperWords d).map (⟨·, none⟩) ++ (t.listed d).flatMap (t.typeUses v)

/-- What the name of a type falls back to. -/
def fallback : Target → String
  | .typescript => "unknown"
  | .rust => "Value"

variable {t : Target} {v : ViewModel}

theorem typeName_eq (t : Target) (v : ViewModel) (name : String) :
    t.typeName v name = ((t.typeNames v).lookup name).getD t.fallback := by
  cases t <;> rfl

theorem isTypeName_typeNames (hv : v.Closed) (t : Target) :
    ∀ word ∈ typeWords (t.typeNames v), Naming.isTypeName word.toList :=
  fun _ hword => isTypeName_of_mem_typeWords hv.classes hword

theorem mem_of_mem_listed {d : DefinitionView} {f : FieldView} (h : f ∈ t.listed d) :
    f ∈ d.fields := by
  cases t with
  | rust => exact h
  | typescript =>
    simp only [listed] at h
    split at h
    · exact (List.mem_filter.mp h).1
    · exact h

theorem printedWords_typeTexts (hv : v.Closed) (t : Target) (d : DefinitionView) :
    (t.typeTexts v d).map printedWords =
      (t.listed d).map fun f => (t.typeUses v f).map (·.word) := by
  have hnames := isTypeName_typeNames hv t
  cases t with
  | typescript =>
    rw [typeTexts, List.map_map]
    change List.map _ (List.map _ (listed .typescript d)) = _
    rw [List.map_map]
    exact List.map_congr_left fun f _ => Interfaces.printedWords_typeText hnames d.immutable f
  | rust =>
    rw [typeTexts, List.map_map]
    exact Structs.printedWords_members hnames [] d.fields

theorem fits_of_mem_typeUses {f : FieldView} {use : Use} (h : use ∈ t.typeUses v f) :
    use.Fits t.reservedWords.contains (t.typeNames v) t.fallback (· ∈ f.type.references) := by
  cases t with
  | typescript =>
    rcases List.mem_append.mp h with h | h
    · exact Interfaces.fits_of_mem_usesOf f.type h
    · split at h
      · rw [List.mem_singleton.mp h]
        exact .helper (by decide)
      · cases h
  | rust =>
    rcases List.mem_append.mp h with h | h
    · split at h
      · rw [List.mem_singleton.mp h]
        exact .helper (by decide)
      · cases h
    · exact Structs.fits_of_mem_usesOf f.type h

theorem isHelper_helperWords {d : DefinitionView} {word : String} (h : word ∈ t.helperWords d) :
    isHelper t.reservedWords.contains word := by
  cases t with
  | typescript =>
    simp only [helperWords, Interfaces.helperWords] at h
    split at h
    · rw [List.mem_singleton.mp h]
      decide
    · cases h
  | rust =>
    have hderived : ∀ word ∈ ["Debug", "Clone", "Default", "PartialEq", "Serialize", "Deserialize"],
        isHelper (reservedWords .rust).contains word := by
      decide
    rcases List.mem_append.mp h with h | h
    · exact hderived word h
    · split at h
      · rw [List.mem_singleton.mp h]
        decide
      · cases h

theorem fits_of_mem_uses (hv : v.Closed) {use : Use} (h : use ∈ t.uses v) :
    use.Fits t.reservedWords.contains (t.typeNames v) t.fallback
      fun name => ∃ d ∈ v.definitions, d.name = name := by
  obtain ⟨d, hd, hmem⟩ := List.mem_flatMap.mp h
  rcases List.mem_append.mp hmem with hmem | hfield
  · rcases List.mem_append.mp hmem with hnamed | hhelper
    · rcases List.mem_cons.mp hnamed with rfl | hparent
      · rw [typeName_eq]
        exact .type ⟨d, hd, rfl⟩
      · obtain ⟨p, hp, rfl⟩ := Option.map_eq_some_iff.mp (Option.mem_toList.mp hparent)
        rw [typeName_eq]
        exact .type (hv.parents d hd p hp)
    · obtain ⟨word, hword, rfl⟩ := List.mem_map.mp hhelper
      exact .helper (isHelper_helperWords hword)
  · obtain ⟨f, hf, huse⟩ := List.mem_flatMap.mp hfield
    exact (fits_of_mem_typeUses huse).imp (hv.references d hd f (mem_of_mem_listed hf))

/-- The text of the type for a definition. -/
def declaration (t : Target) (v : ViewModel) (d : DefinitionView) : String :=
  match t with
  | .typescript => (Interfaces.Interface.ofDefinition (t.typeNames v) d).text
  | .rust => (Structs.Struct.ofDefinition (t.typeNames v) d).text

theorem within_write {d : DefinitionView} (hd : d ∈ v.definitions) (t : Target) :
    Within (t.declaration v d) (t.write v) := by
  cases t with
  | typescript => exact Interfaces.within_write (List.mem_map_of_mem hd)
  | rust => exact Structs.within_write (List.mem_map_of_mem hd)

theorem stands_typeName (t : Target) (v : ViewModel) (d : DefinitionView) :
    Stands (t.typeName v d.name) (t.declaration v d) := by
  cases t with
  | typescript => exact Interfaces.Interface.stands_name _
  | rust => exact Structs.Struct.stands_name _

theorem stands_parent (t : Target) (v : ViewModel) {d : DefinitionView} {p : String}
    (hp : d.parent = some p) : Stands (t.typeName v p) (t.declaration v d) := by
  cases t with
  | typescript => exact Interfaces.Interface.stands_parent (congrArg (Option.map _) hp)
  | rust => exact Structs.Struct.stands_parent (congrArg (Option.map _) hp)

theorem stands_typeText {d : DefinitionView} {text : String} (h : text ∈ t.typeTexts v d) :
    Stands text (t.declaration v d) := by
  cases t with
  | typescript =>
    obtain ⟨p, hp, rfl⟩ := List.mem_map.mp h
    exact Interfaces.Interface.stands_typeText hp
  | rust =>
    obtain ⟨m, hm, rfl⟩ := List.mem_map.mp h
    exact Structs.Struct.stands_storedText hm

theorem helperWords_subset {d : DefinitionView} (hd : d ∈ v.definitions) (t : Target) :
    t.helperWords d ⊆ printedWords (t.write v) := by
  have hwithin := within_write hd t
  cases t with
  | typescript => exact Interfaces.helperWords_subset hwithin
  | rust => exact Structs.helperWords_subset hwithin

/-- The words of the file are there for what is listed. -/
theorem mem_printedWords_of_mem_uses (hv : v.Closed) {use : Use} (h : use ∈ t.uses v) :
    use.word ∈ printedWords (t.write v) := by
  obtain ⟨d, hd, hmem⟩ := List.mem_flatMap.mp h
  have hwithin := within_write hd t
  have hplain (name : String) : isPlain (t.typeName v name) := by
    rw [typeName_eq]
    exact isPlain_typeName (isTypeName_typeNames hv t) (by cases t <;> decide) name
  rcases List.mem_append.mp hmem with hmem | hfield
  · rcases List.mem_append.mp hmem with hnamed | hhelper
    · rcases List.mem_cons.mp hnamed with rfl | hparent
      · exact ((stands_typeName t v d).within hwithin).mem_printedWords (hplain d.name)
      · obtain ⟨p, hp, rfl⟩ := Option.map_eq_some_iff.mp (Option.mem_toList.mp hparent)
        exact ((stands_parent t v hp).within hwithin).mem_printedWords (hplain p)
    · obtain ⟨word, hword, rfl⟩ := List.mem_map.mp hhelper
      exact helperWords_subset hd t hword
  · obtain ⟨f, hf, huse⟩ := List.mem_flatMap.mp hfield
    have hwords : (t.typeUses v f).map (·.word) ∈ (t.typeTexts v d).map printedWords := by
      rw [printedWords_typeTexts hv t d]
      exact List.mem_map_of_mem hf
    obtain ⟨text, htext, hprinted⟩ := List.mem_map.mp hwords
    apply ((stands_typeText htext).within hwithin).printedWords_subset
    rw [hprinted]
    exact List.mem_map_of_mem huse

/-- The types in a file have different names, none of them a reserved word, and the types of
members are written with the words of `uses`, all of which are in the file. Of these, a word for a
definition stands for that definition, and a word from elsewhere stands for one if and only if it is
the name of its class. -/
theorem uses_denote {decls : Declarations} (h : ViewModel.ofDeclarations decls = .ok v)
    (t : Target) :
    (∀ d ∈ v.definitions, ∀ e ∈ v.definitions,
        t.typeName v d.name = t.typeName v e.name → d.name = e.name) ∧
      (∀ word ∈ t.reservedWords, denotes (t.typeNames v) word = none) ∧
      (∀ d ∈ v.definitions, (t.typeTexts v d).map printedWords =
        (t.listed d).map fun f => (t.typeUses v f).map (·.word)) ∧
      (∀ d ∈ v.definitions, ∀ text ∈ t.typeTexts v d, Stands text (t.write v)) ∧
      (∀ use ∈ t.uses v, use.word ∈ printedWords (t.write v)) ∧
      ∀ use ∈ t.uses v,
        (∀ name, use.definition = some name → denotes (t.typeNames v) use.word = some name) ∧
        (use.definition = none →
          (denotes (t.typeNames v) use.word = none ↔
            ∀ d ∈ v.definitions, d.className ≠ use.word)) := by
  have hv := ViewModel.closed_of_ofDeclarations h
  have hcoined : ∀ word ∈ t.reservedWords, isCoined word = false := by
    cases t <;> decide
  refine ⟨?_, ?_, ?_, ?_, ?_, ?_⟩
  · intro d hd e he hname
    have hdenotes (d : DefinitionView) (hd : d ∈ v.definitions) :
        denotes (t.typeNames v) (t.typeName v d.name) = some d.name := by
      rw [typeName_eq]
      exact denotes_typeName hd t.reservedWords.contains t.fallback
    have hsame := hdenotes d hd
    rw [hname, hdenotes e he] at hsame
    exact (Option.some.inj hsame).symm
  · intro word hword
    exact denotes_reserved (List.contains_iff_mem.mpr hword) (hcoined word hword)
  · intro d _
    exact printedWords_typeTexts hv t d
  · intro d hd text htext
    exact (stands_typeText htext).within (within_write hd t)
  · intro use huse
    exact mem_printedWords_of_mem_uses hv huse
  · intro use huse
    exact (fits_of_mem_uses hv huse).denotes hv.classes

/-- Two definitions of one class, in different namespaces. -/
def persons : Declarations := Catalogue.ofList
  [("shop.Person", ⟨none, false, Catalogue.ofList [("names", .ofType "string[]")]⟩),
    ("staff.Person", ⟨some "shop.Person", true, Catalogue.ofList [("boss", .ofType "shop.Person")]⟩)]

theorem uses_denote_persons : ∃ v, ViewModel.ofDeclarations persons = .ok v ∧
    (∀ d ∈ v.definitions, ∀ e ∈ v.definitions,
      typeName .typescript v d.name = typeName .typescript v e.name → d.name = e.name) ∧
    ∀ use ∈ uses .rust v, ∀ name, use.definition = some name →
      denotes (typeNames .rust v) use.word = some name := by
  have hok : (ViewModel.ofDeclarations persons).isOk := by decide +kernel
  obtain ⟨v, h⟩ := exists_of_isOk hok
  obtain ⟨hdistinct, -⟩ := uses_denote h .typescript
  obtain ⟨-, -, -, -, -, huses⟩ := uses_denote h .rust
  exact ⟨v, h, hdistinct, fun use huse => (huses use huse).1⟩

/-- A class with the name of the type of any document. -/
def valueClass : Declarations := Catalogue.ofList
  [("Value", ⟨none, false, Catalogue.ofList [("data", .ofType "mixed")]⟩)]

/-- The type of the field stands for the definition and not for any document. -/
theorem captures_value : ∃ v, ViewModel.ofDeclarations valueClass = .ok v ∧
    ∃ use ∈ uses .rust v, use.word = "Value" ∧ use.definition = none ∧
      denotes (typeNames .rust v) "Value" = some "Value" := by
  have hcaptured : (ViewModel.ofDeclarations valueClass).toOption.any (fun v =>
      (uses .rust v).any (fun use => use.word == "Value" && use.definition.isNone)
        && denotes (typeNames .rust v) "Value" == some "Value") := by
    decide +kernel
  cases h : ViewModel.ofDeclarations valueClass with
  | error e =>
    rw [h] at hcaptured
    cases hcaptured
  | ok v =>
    rw [h] at hcaptured
    obtain ⟨huses, hvalue⟩ := Bool.and_eq_true_iff.mp hcaptured
    obtain ⟨use, huse, hboth⟩ := List.any_eq_true.mp huses
    obtain ⟨hword, hnone⟩ := Bool.and_eq_true_iff.mp hboth
    exact ⟨v, rfl, use, huse, beq_iff_eq.mp hword, Option.isNone_iff_eq_none.mp hnone,
      beq_iff_eq.mp hvalue⟩

end Target

end RecordDefinitions
