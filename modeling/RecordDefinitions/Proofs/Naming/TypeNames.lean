import RecordDefinitions.Import.Options
import RecordDefinitions.Proofs.Naming.Tokens
import RecordDefinitions.Proofs.Naming.Unique
import RecordDefinitions.Proofs.TypeExpr.Reading

/-!
# Names of types are definition names

Whatever a key is, the type name that is made of it starts with a capital letter and goes on
with letters, digits and underscores. So it is the name of a definition, also with a number
behind it and behind a namespace.
-/

namespace RecordDefinitions

namespace Naming

/-! ## Pascal case -/

theorem isAlphanum_of_mem_pascalChars {name : List Char} {c : Char} (hc : c ∈ pascalChars name) :
    c.isAlphanum := by
  obtain ⟨word, hword, hc⟩ := List.mem_flatMap.mp hc
  cases word with
  | nil => cases hc
  | cons d rest =>
    rcases List.mem_cons.mp hc with rfl | hc
    · exact isAlphanum_toUpper (isAlphanum_of_mem_tokens hword List.mem_cons_self)
    · exact isAlphanum_of_mem_tokens hword (List.mem_cons_of_mem d hc)

/-- The first character is that of a word, in capitals. -/
theorem exists_of_flatMap_capitalized {words : List (List Char)} {c : Char} {rest : List Char}
    (h : words.flatMap capitalized = c :: rest) : ∃ word ∈ words, ∃ d ∈ word, c = d.toUpper := by
  induction words with
  | nil => cases h
  | cons word words ih =>
    cases word with
    | nil =>
      obtain ⟨word, hword, hd⟩ := ih h
      exact ⟨word, List.mem_cons_of_mem _ hword, hd⟩
    | cons d others => exact ⟨d :: others, List.mem_cons_self, d, List.mem_cons_self,
        (List.cons.inj h).1.symm⟩

theorem isUpper_or_isDigit_of_pascalChars {name rest : List Char} {c : Char}
    (h : pascalChars name = c :: rest) : c.isUpper ∨ c.isDigit := by
  obtain ⟨word, hword, d, hd, rfl⟩ := exists_of_flatMap_capitalized h
  exact isUpper_or_isDigit_toUpper (isAlphanum_of_mem_tokens hword hd)

/-! ## Type names -/

theorem isTypeName_iff {name : List Char} :
    isTypeName name ↔
      (∃ c rest, name = c :: rest ∧ c.isUpper) ∧ ∀ c ∈ name, c = '_' ∨ c.isAlphanum := by
  rw [isTypeName, Bool.and_eq_true, List.all_eq_true]
  simp only [Bool.or_eq_true, beq_iff_eq]
  refine and_congr_left' ?_
  cases name with
  | nil => exact iff_of_false nofun nofun
  | cons c rest =>
    rw [List.head?_cons, Option.any_some]
    exact ⟨fun h => ⟨c, rest, rfl, h⟩, fun ⟨_, _, hname, h⟩ => (List.cons.inj hname).1 ▸ h⟩

/-- `Type` in front is enough for letters, digits and underscores after a capital or a digit. -/
theorem isTypeName_guarded {name : List Char}
    (hfirst : ∃ c rest, name = c :: rest ∧ (c.isUpper ∨ c.isDigit))
    (hall : ∀ c ∈ name, c = '_' ∨ c.isAlphanum) :
    isTypeName (if name.head?.any Char.isDigit then "Type" ++ String.ofList name
      else String.ofList name).toList := by
  obtain ⟨c, rest, rfl, hc⟩ := hfirst
  rw [List.head?_cons, Option.any_some]
  by_cases hdigit : c.isDigit
  · have hword : isTypeName "Type".toList := rfl
    have htext : ("Type" ++ String.ofList (c :: rest)).toList = "Type".toList ++ c :: rest := by
      rw [String.toList_append, String.toList_ofList (l := c :: rest)]
    rw [if_pos hdigit, htext, isTypeName_iff]
    refine ⟨⟨'T', _, rfl, rfl⟩, fun d hd => ?_⟩
    rcases List.mem_append.mp hd with hd | hd
    · exact (isTypeName_iff.mp hword).2 d hd
    · exact hall d hd
  · rw [if_neg hdigit, String.toList_ofList, isTypeName_iff]
    exact ⟨⟨c, rest, rfl, hc.resolve_right hdigit⟩, hall⟩

/-- Every key has a type name. -/
theorem isTypeName_typeName (key : String) {fallback : String}
    (hfallback : isTypeName fallback.toList) : isTypeName (typeName key fallback).toList := by
  by_cases hkey : isTypeName key.toList
  · rwa [typeName, if_pos hkey]
  rw [typeName, if_neg hkey]
  cases hpascal : pascalChars key.toList with
  | nil =>
    obtain ⟨⟨c, rest, hname, hupper⟩, hall⟩ := isTypeName_iff.mp hfallback
    exact isTypeName_guarded ⟨c, rest, hname, Or.inl hupper⟩ hall
  | cons c rest =>
    have hall : ∀ d ∈ c :: rest, d = '_' ∨ d.isAlphanum := by
      rw [← hpascal]
      exact fun d hd => Or.inr (isAlphanum_of_mem_pascalChars hd)
    exact isTypeName_guarded ⟨c, rest, rfl, isUpper_or_isDigit_of_pascalChars hpascal⟩ hall

theorem isTypeName_numbered {base : String} (h : isTypeName base.toList) (n : Nat) :
    isTypeName (numbered base n).toList := by
  obtain ⟨⟨c, rest, hname, hupper⟩, hall⟩ := isTypeName_iff.mp h
  have htext : (numbered base n).toList = base.toList ++ Decimal.digits n := by
    rw [numbered, Decimal.text, String.toList_append, String.toList_ofList]
  rw [htext, isTypeName_iff]
  refine ⟨⟨c, rest ++ Decimal.digits n, by rw [hname, List.cons_append], hupper⟩, fun d hd => ?_⟩
  rcases List.mem_append.mp hd with hd | hd
  · exact hall d hd
  · have hdigit := Decimal.isDigit_of_mem_digits hd
    exact Or.inr (by rw [Char.isAlphanum, hdigit, Bool.or_true])

/-! ## Definition names -/

/-- A type name is an identifier of its own. -/
theorem isIdentifier_of_isTypeName {name : List Char} (h : isTypeName name) :
    TypeExpr.isIdentifier name := by
  obtain ⟨⟨c, rest, rfl, hupper⟩, hall⟩ := isTypeName_iff.mp h
  have hrest : ∀ d ∈ rest, d.isAlphanum || d == '_' := fun d hd => by
    rcases hall d (List.mem_cons_of_mem c hd) with rfl | hd
    · rfl
    · rw [hd, Bool.true_or]
  have hfirst : c.isAlpha := by rw [Char.isAlpha, hupper, Bool.true_or]
  rw [TypeExpr.isIdentifier, hfirst, Bool.true_or, Bool.true_and, List.all_eq_true]
  exact hrest

theorem pieces_of_isTypeName {name : List Char} (h : isTypeName name) :
    Text.pieces (· == '.') name = [name] := by
  apply Text.pieces_of_not_mem
  intro hdot
  rcases (isTypeName_iff.mp h).2 _ hdot with hdot | hdot
  · cases hdot
  · cases hdot

/-- A type name behind identifiers that are followed by dots. -/
theorem isDefinitionName_of_pieces {text name : List Char} (parts : List (List Char))
    (htext : Text.pieces (· == '.') text = parts ++ [name])
    (hparts : parts.all TypeExpr.isIdentifier) (hname : isTypeName name) :
    TypeExpr.isDefinitionName text := by
  obtain ⟨⟨c, rest, rfl, hupper⟩, -⟩ := isTypeName_iff.mp hname
  have hall : (parts ++ [c :: rest]).all TypeExpr.isIdentifier := by
    rw [List.all_append, hparts, List.all_cons, isIdentifier_of_isTypeName hname]
    rfl
  rw [TypeExpr.isDefinitionName, htext, hall, List.getLast?_concat, Bool.true_and]
  exact hupper

end Naming

/-- The namespace is missing, empty or a dotted path of identifiers. -/
def ImportOptions.HasPlainNamespace (o : ImportOptions) : Prop :=
  ∀ n, o.namespaceName = some n →
    n = "" ∨ (Text.pieces (· == '.') n.toList).all TypeExpr.isIdentifier

namespace Naming

variable {o : ImportOptions} {base : String}

theorem isDefinitionName_qualified (ho : o.HasPlainNamespace) (h : isTypeName base.toList) :
    TypeExpr.isDefinitionName (o.qualified base).toList := by
  have hbase := pieces_of_isTypeName h
  rw [ImportOptions.qualified]
  split
  · exact isDefinitionName_of_pieces [] hbase rfl h
  next n hn =>
    rcases ho n hn with rfl | hparts
    · exact isDefinitionName_of_pieces [] hbase rfl h
    · split
      · exact isDefinitionName_of_pieces [] hbase rfl h
      · refine isDefinitionName_of_pieces (Text.pieces (· == '.') n.toList) ?_ hparts h
        have htext : (n ++ "." ++ base).toList = n.toList ++ '.' :: base.toList := by
          rw [String.toList_append, String.toList_append, List.append_assoc]
          rfl
        rw [htext, Text.pieces_separator_append rfl, hbase]

theorem numbered_qualified (n : Nat) :
    numbered (o.qualified base) n = o.qualified (numbered base n) := by
  rw [ImportOptions.qualified, ImportOptions.qualified]
  split
  · rfl
  · split
    · rfl
    · rw [numbered, numbered, String.append_assoc]

theorem isTypeName_uniqueName (h : isTypeName base.toList) (used : List String) :
    isTypeName (uniqueName used base).toList := by
  rcases uniqueName_eq_or used base with hbase | ⟨n, hnumbered⟩
  · rwa [hbase]
  · rw [hnumbered]
    exact isTypeName_numbered h n

/-- A type name stays a definition name when a taken one is passed by. -/
theorem isDefinitionName_uniqueName (ho : o.HasPlainNamespace) (h : isTypeName base.toList)
    (used : List String) :
    TypeExpr.isDefinitionName (uniqueName used (o.qualified base)).toList := by
  rcases uniqueName_eq_or used (o.qualified base) with hbase | ⟨n, hnumbered⟩
  · rw [hbase]
    exact isDefinitionName_qualified ho h
  · rw [hnumbered, numbered_qualified]
    exact isDefinitionName_qualified ho (isTypeName_numbered h n)

theorem qualified_ne_empty (h : isTypeName base.toList) : o.qualified base ≠ "" := by
  obtain ⟨⟨c, rest, hname, -⟩, -⟩ := isTypeName_iff.mp h
  have hbase : base ≠ "" := by
    rintro rfl
    cases hname
  rw [ImportOptions.qualified]
  split
  · exact hbase
  · split
    · exact hbase
    · simp [hbase]

/-- No name is empty, whatever the namespace is. -/
theorem uniqueName_ne_empty (h : isTypeName base.toList) (used : List String) :
    uniqueName used (o.qualified base) ≠ "" := by
  rcases uniqueName_eq_or used (o.qualified base) with hbase | ⟨n, hnumbered⟩
  · rw [hbase]
    exact qualified_ne_empty h
  · rw [hnumbered, numbered_qualified]
    exact qualified_ne_empty (isTypeName_numbered h n)

/-! ## Names that are read as definitions -/

theorem read_of_isDefinitionName {name : String} (h : TypeExpr.isDefinitionName name.toList) :
    TypeExpr.read name = .ok (.definition name) :=
  (TypeExpr.Readable.definition h).read_text

/-- With a fallback that is a type name itself, the type name of any key is read as the definition
of that name, also with a number behind it and in a namespace, whichever comes first. It is its
own type name, as the keys are that are type names, and no others. -/
theorem read_typeName (key : String) {fallback : String} (hfallback : isTypeName fallback.toList) :
    (∀ o : ImportOptions, o.HasPlainNamespace → ∀ used,
        ∀ name ∈ [typeName key fallback, o.qualified (uniqueName used (typeName key fallback)),
            uniqueName used (o.qualified (typeName key fallback))],
          TypeExpr.read name = .ok (.definition name)) ∧
      (∀ other, typeName (typeName key fallback) other = typeName key fallback) ∧
      (isTypeName key.toList ↔ ∀ other, typeName key other = key) := by
  have hname : isTypeName (typeName key fallback).toList := isTypeName_typeName key hfallback
  refine ⟨fun o ho used name hmem => read_of_isDefinitionName ?_, fun other => if_pos hname,
    fun hkey other => if_pos hkey, fun hkey => ?_⟩
  · simp only [List.mem_cons, List.not_mem_nil, or_false] at hmem
    rcases hmem with rfl | rfl | rfl
    · exact isDefinitionName_of_pieces [] (pieces_of_isTypeName hname) rfl hname
    · exact isDefinitionName_qualified ho (isTypeName_uniqueName hname used)
    · exact isDefinitionName_uniqueName ho hname used
  · rwa [hkey fallback] at hname

/-- The key starts with a digit, holds letters beyond ASCII, and its type name is taken. -/
theorem read_typeName_twoFactor :
    isTypeName "Schema".toList ∧ typeName "2fa größe" "Schema" = "Type2faGrE" ∧
      ∃ o : ImportOptions, o.HasPlainNamespace ∧
        o.qualified "Type2faGrE" = "Shop.Models.Type2faGrE" ∧
        uniqueName ["Shop.Models.Type2faGrE"] "Shop.Models.Type2faGrE" =
          "Shop.Models.Type2faGrE2" ∧
        TypeExpr.read "Shop.Models.Type2faGrE2" = .ok (.definition "Shop.Models.Type2faGrE2") ∧
        typeName "Type2faGrE" "" = "Type2faGrE" := by
  have hfallback : isTypeName "Schema".toList := rfl
  have hname : typeName "2fa größe" "Schema" = "Type2faGrE" := by decide
  let o : ImportOptions := { ImportOptions.usual with namespaceName := some "Shop.Models" }
  have ho : o.HasPlainNamespace := by
    rintro n ⟨⟩
    exact Or.inr (by decide)
  have hqualified : o.qualified "Type2faGrE" = "Shop.Models.Type2faGrE" := by decide
  have hunique : uniqueName ["Shop.Models.Type2faGrE"] "Shop.Models.Type2faGrE" =
      "Shop.Models.Type2faGrE2" := by decide +kernel
  obtain ⟨hread, hown, -⟩ := read_typeName "2fa größe" hfallback
  rw [hname] at hread hown
  have hnumbered := hread o ho ["Shop.Models.Type2faGrE"] _
    (List.mem_cons_of_mem _ (List.mem_cons_of_mem _ List.mem_cons_self))
  rw [hqualified, hunique] at hnumbered
  exact ⟨hfallback, hname, o, ho, hqualified, hunique, hnumbered, hown ""⟩

end Naming

end RecordDefinitions
