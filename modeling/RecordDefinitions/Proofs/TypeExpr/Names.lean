import Mathlib
import RecordDefinitions.Proofs.Text.Ends
import RecordDefinitions.Proofs.Text.Pieces
import RecordDefinitions.TypeExpr.Reader
import RecordDefinitions.TypeExpr.Writer

/-!
# Names in type texts

Keywords, definition names and external paths are words: texts without blanks, brackets
and bars. Each of them is read as what it was written for.
-/

namespace RecordDefinitions.TypeExpr

/-- The characters of keywords, definition names and external paths. -/
def isWordCharacter (c : Char) : Bool := c.isAlphanum || c == '_' || c == '.' || c == '\\'

/-- A text of such characters. -/
structure IsWord (text : List Char) : Prop where
  ne_nil : text ≠ []
  forall_mem : ∀ c ∈ text, isWordCharacter c

theorem isBlank_of_isWordCharacter {c : Char} (h : isWordCharacter c) : Text.isBlank c = false := by
  simp only [isWordCharacter, Char.isAlphanum, Char.isAlpha, Char.isUpper, Char.isLower,
    Char.isDigit, Bool.or_eq_true, Bool.and_eq_true, decide_eq_true_eq, beq_iff_eq,
    UInt32.le_iff_toNat_le, ge_iff_le] at h
  change (((((65 ≤ c.toNat ∧ c.toNat ≤ 90) ∨ (97 ≤ c.toNat ∧ c.toNat ≤ 122)) ∨
    (48 ≤ c.toNat ∧ c.toNat ≤ 57)) ∨ c = '_') ∨ c = '.') ∨ c = '\\' at h
  rcases h with ((h | rfl) | rfl) | rfl
  · simp only [Text.isBlank, Bool.or_eq_false_iff, Bool.and_eq_false_iff, decide_eq_false_iff_not,
      beq_eq_false_iff_ne]
    omega
  · rfl
  · rfl
  · rfl

namespace IsWord

variable {text : List Char}

/-- A word holds no mark. -/
theorem ne_of_mem (h : IsWord text) {c d : Char} (hc : c ∈ text)
    (hd : isWordCharacter d = false) : c ≠ d := by
  rintro rfl
  rw [h.forall_mem c hc] at hd
  cases hd

theorem starts (h : IsWord text) : Text.Starts (isWordCharacter · = true) text :=
  Text.starts_of_forall h.ne_nil h.forall_mem

theorem ends (h : IsWord text) : Text.Ends (isWordCharacter · = true) text :=
  Text.ends_of_forall h.ne_nil h.forall_mem

theorem trim (h : IsWord text) : Text.trim text = text :=
  Text.trim_eq_self (h.starts.imp fun _ => isBlank_of_isWordCharacter)
    (h.ends.imp fun _ => isBlank_of_isWordCharacter)

end IsWord

theorem isWord_of_all {text : List Char} (hne : text ≠ []) (h : text.all isWordCharacter) :
    IsWord text :=
  ⟨hne, List.all_eq_true.mp h⟩

theorem isWord_array : IsWord "array".toList := isWord_of_all (by decide) rfl

theorem isWord_int : IsWord "int".toList := isWord_of_all (by decide) rfl

theorem isWord_string : IsWord "string".toList := isWord_of_all (by decide) rfl

theorem isWordCharacter_of_identifier {text : List Char} (h : isIdentifier text) {c : Char}
    (hc : c ∈ text) : isWordCharacter c := by
  cases text with
  | nil => cases hc
  | cons first others =>
    simp only [isIdentifier, Bool.and_eq_true, Bool.or_eq_true, beq_iff_eq, List.all_eq_true] at h
    obtain ⟨hfirst, hothers⟩ := h
    rcases List.mem_cons.mp hc with rfl | hc
    · rcases hfirst with h | rfl
      · simp [isWordCharacter, Char.isAlphanum, h]
      · rfl
    · rcases hothers c hc with h | rfl
      · simp [isWordCharacter, h]
      · rfl

/-- Identifiers with dots or backslashes between them. -/
theorem isWord_of_identifiers {separator : Char} (hseparator : isWordCharacter separator)
    {text : List Char} (h : (Text.pieces (· == separator) text).all isIdentifier) :
    IsWord text where
  ne_nil := by
    rintro rfl
    cases h
  forall_mem c hc := by
    rw [← Text.joined_pieces separator text] at hc
    rcases Text.mem_joined hc with rfl | ⟨part, hpart, hc⟩
    · exact hseparator
    · exact isWordCharacter_of_identifier (List.all_eq_true.mp h part hpart) hc

theorem isWord_of_isDefinitionName {name : List Char} (h : isDefinitionName name) : IsWord name :=
  isWord_of_identifiers rfl (Bool.and_eq_true_iff.mp h).1

theorem isDefinitionName_backslash (rest : List Char) :
    isDefinitionName ('\\' :: rest) = false := by
  cases h : Text.pieces (· == '.') rest <;>
    simp [isDefinitionName, Text.pieces, h, isIdentifier, Char.isAlpha, Char.isUpper, Char.isLower]

/-- A keyword is no definition name and no external path. -/
theorem not_name_of_ofKeyword? {word : String} {kind : ScalarKind}
    (h : ScalarKind.ofKeyword? word = some kind) :
    isDefinitionName word.toList = false ∧ word.toList.head? ≠ some '\\' := by
  unfold ScalarKind.ofKeyword? at h
  split at h
  case h_13 => cases h
  all_goals exact ⟨rfl, by decide⟩

theorem readName?_keyword (kind : ScalarKind) :
    readName? kind.keyword.toList = some (scalar kind) := by
  cases kind <;> rfl

theorem readName?_definition {name : String} (h : isDefinitionName name.toList) :
    readName? name.toList = some (definition name) := by
  have hkeyword : ScalarKind.ofKeyword? name = none := by
    rw [Option.eq_none_iff_forall_ne_some]
    intro kind hkind
    rw [(not_name_of_ofKeyword? hkind).1] at h
    cases h
  have hpath : ∀ path, name.toList ≠ '\\' :: path := by
    intro path hpath
    rw [hpath, isDefinitionName_backslash] at h
    cases h
  unfold readName?
  rw [String.ofList_toList, hkeyword]
  dsimp only
  split
  · next hstart => exact absurd hstart (hpath _)
  · rw [if_pos h]

theorem readName?_external {path : String}
    (h : (Text.pieces (· == '\\') path.toList).all isIdentifier) :
    readName? ('\\' :: path.toList) = some (external path) := by
  have hkeyword : ScalarKind.ofKeyword? (String.ofList ('\\' :: path.toList)) = none := by
    rw [Option.eq_none_iff_forall_ne_some]
    intro kind hkind
    exact (not_name_of_ofKeyword? hkind).2 (by rw [String.toList_ofList, List.head?_cons])
  unfold readName?
  rw [hkeyword]
  dsimp only
  rw [externalPath?, if_pos h, Option.map_some, String.ofList_toList]
  rfl

end RecordDefinitions.TypeExpr
