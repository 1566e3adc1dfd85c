import Mathlib.Data.List.Basic
import RecordDefinitions.Proofs.Json.Lines

/-!
# Documents in comments

A block comment ends at the first star with a slash behind it. Neither of them is escaped in a JSON
text, so the compact text of a document ends a comment exactly if one of the strings in the
document, or a key, does.
-/

namespace RecordDefinitions

namespace Text

/-- The text has the end of a block comment in it. -/
def EndsComment (text : List Char) : Prop := ['*', '/'] <:+: text

instance (text : List Char) : Decidable (EndsComment text) :=
  inferInstanceAs (Decidable (_ <:+: _))

/-- Characters that are no part of the end of a comment. -/
def isHarmless (c : Char) : Bool := c != '*' && c != '/'

theorem not_endsComment_nil : ¬ EndsComment [] := by decide

theorem endsComment_cons_iff {c : Char} {text : List Char} :
    EndsComment (c :: text) ↔ (c = '*' ∧ text.head? = some '/') ∨ EndsComment text := by
  rw [EndsComment, List.infix_cons_iff, List.cons_prefix_cons, eq_comm]
  cases text with
  | nil => simp [EndsComment]
  | cons d text => simp [EndsComment, eq_comm]

theorem endsComment_harmless_cons {c : Char} (hc : isHarmless c) {text : List Char} :
    EndsComment (c :: text) ↔ EndsComment text := by
  rw [endsComment_cons_iff, or_iff_right]
  rintro ⟨rfl, -⟩
  cases hc

/-- A character that is no part of an end keeps the texts around it apart. -/
theorem endsComment_append_cons {c : Char} (hc : isHarmless c) (text rest : List Char) :
    EndsComment (text ++ c :: rest) ↔ EndsComment text ∨ EndsComment rest := by
  have hslash : c ≠ '/' := by
    rintro rfl
    cases hc
  induction text with
  | nil =>
    rw [List.nil_append, endsComment_harmless_cons hc, or_iff_right not_endsComment_nil]
  | cons d text ih =>
    have hhead : (text ++ c :: rest).head? = some '/' ↔ text.head? = some '/' := by
      cases text with
      | nil => simpa using hslash
      | cons e text => rfl
    rw [List.cons_append, endsComment_cons_iff, endsComment_cons_iff, hhead, or_assoc]
    exact or_congr_right ih

theorem endsComment_harmless_append {gap : List Char} (h : gap.all isHarmless)
    (rest : List Char) : EndsComment (gap ++ rest) ↔ EndsComment rest := by
  induction gap with
  | nil => rfl
  | cons c gap ih =>
    obtain ⟨hc, hgap⟩ := Bool.and_eq_true_iff.mp h
    rw [List.cons_append, endsComment_harmless_cons hc]
    exact ih hgap

theorem not_endsComment_of_harmless {text : List Char} (h : text.all isHarmless) :
    ¬ EndsComment text := by
  rw [← List.append_nil text, endsComment_harmless_append h]
  exact not_endsComment_nil

theorem endsComment_append_harmless {gap : List Char} (h : gap.all isHarmless)
    (text : List Char) : EndsComment (text ++ gap) ↔ EndsComment text := by
  cases gap with
  | nil => rw [List.append_nil]
  | cons c gap =>
    obtain ⟨hc, hgap⟩ := Bool.and_eq_true_iff.mp h
    rw [endsComment_append_cons hc, or_iff_left (not_endsComment_of_harmless hgap)]

/-- What stands between two texts keeps them apart. -/
theorem endsComment_append_gap {gap : List Char} (hne : gap ≠ []) (h : gap.all isHarmless)
    (text rest : List Char) :
    EndsComment (text ++ (gap ++ rest)) ↔ EndsComment text ∨ EndsComment rest := by
  cases gap with
  | nil => exact absurd rfl hne
  | cons c gap =>
    obtain ⟨hc, hgap⟩ := Bool.and_eq_true_iff.mp h
    rw [List.cons_append, endsComment_append_cons hc, endsComment_harmless_append hgap]

theorem endsComment_intercalate {glue : String} (hne : glue.toList ≠ [])
    (h : glue.toList.all isHarmless) (texts : List String) :
    EndsComment (glue.intercalate texts).toList ↔ ∃ text ∈ texts, EndsComment text.toList := by
  induction texts with
  | nil => simp [not_endsComment_nil]
  | cons text texts ih =>
    cases texts with
    | nil => simp
    | cons next texts =>
      rw [String.intercalate_cons_cons, String.append_assoc, String.toList_append,
        String.toList_append, endsComment_append_gap hne h, List.exists_mem_cons_iff]
      exact or_congr_right ih

end Text

open Text

/-! ## Documents -/

mutual

/-- The strings in a document and the keys of its objects. -/
def Document.texts : Document → List String
  | .string s => [s]
  | .array items => textsOfItems items
  | .object members => textsOfMembers members
  | .null | .bool _ | .number _ => []

def Document.textsOfItems : List Document → List String
  | [] => []
  | d :: ds => texts d ++ textsOfItems ds

def Document.textsOfMembers : List (String × Document) → List String
  | [] => []
  | (k, d) :: rest => k :: texts d ++ textsOfMembers rest

end

namespace Json

theorem isHarmless_of_toNat {c : Char} (hstar : c.toNat ≠ 0x2A) (hslash : c.toNat ≠ 0x2F) :
    isHarmless c := by
  rw [isHarmless, Bool.and_eq_true, bne_iff_ne, bne_iff_ne]
  constructor
  · rintro rfl
    exact hstar rfl
  · rintro rfl
    exact hslash rfl

/-- A character is left as it is, or it gives a backslash with harmless characters behind it. -/
theorem escaped_eq_or (c : Char) : escaped c = [c] ∨
    isHarmless c ∧ ∃ more, escaped c = '\\' :: more ∧ more.all isHarmless := by
  have hhex : ∀ d < 16, isHarmless (hexDigit d) := by decide
  unfold escaped
  split
  case h_8 =>
    split
    next hcontrol =>
      have hhigh := hhex (c.toNat / 16) (by omega)
      have hlow := hhex (c.toNat % 16) (by omega)
      refine Or.inr ⟨isHarmless_of_toNat (by omega) (by omega), _, rfl, ?_⟩
      simp only [List.all_cons, hhigh, hlow]
      decide
    · exact Or.inl rfl
  all_goals
    rename_i hnat
    have hself : isHarmless c := isHarmless_of_toNat (by omega) (by omega)
    refine Or.inr ⟨hself, _, rfl, ?_⟩
    simp only [List.all_cons, List.all_nil, hself]
    decide

/-- Escaping neither makes nor hides the end of a comment. -/
theorem endsComment_escaped (text : List Char) :
    EndsComment (text.flatMap escaped) ↔ EndsComment text := by
  induction text with
  | nil => rfl
  | cons c text ih =>
    rw [List.flatMap_cons]
    rcases escaped_eq_or c with hself | ⟨hc, more, hescaped, hmore⟩
    · have hhead : (text.flatMap escaped).head? = some '/' ↔ text.head? = some '/' := by
        cases text with
        | nil => rfl
        | cons d text =>
          rw [List.flatMap_cons, List.head?_cons]
          rcases escaped_eq_or d with hself | ⟨hd, more, hescaped, -⟩
          · rw [hself]
            rfl
          · have hslash : d ≠ '/' := by
              rintro rfl
              cases hd
            rw [hescaped]
            simpa using hslash
      rw [hself, List.singleton_append, endsComment_cons_iff, endsComment_cons_iff, hhead]
      exact or_congr_right ih
    · have hharmless : (escaped c).all isHarmless := by
        rw [hescaped, List.all_cons, hmore]
        rfl
      rw [endsComment_harmless_append hharmless, endsComment_harmless_cons hc]
      exact ih

theorem endsComment_quoted (s : String) : EndsComment (quoted s).toList ↔ EndsComment s.toList := by
  have hquote : "\"".toList.all isHarmless := by decide
  rw [quoted, String.toList_append, String.toList_append, endsComment_append_harmless hquote,
    endsComment_harmless_append hquote, String.toList_ofList]
  exact endsComment_escaped s.toList

/-- Brackets and commas end no comment. -/
theorem endsComment_bracketed {opening closing : String}
    (hopening : opening.toList.all isHarmless) (hclosing : closing.toList.all isHarmless)
    (texts : List String) : EndsComment (opening ++ ",".intercalate texts ++ closing).toList ↔
      ∃ text ∈ texts, EndsComment text.toList := by
  rw [String.toList_append, String.toList_append, endsComment_append_harmless hclosing,
    endsComment_harmless_append hopening]
  exact endsComment_intercalate (by decide) (by decide) texts

theorem not_endsComment_numeral (n : Number) : ¬ EndsComment (numeral n).toList := by
  refine not_endsComment_of_harmless (List.all_eq_true.mpr fun c hc => ?_)
  have hnumeric := isNumeric_numeral n c hc
  rw [isHarmless, Bool.and_eq_true, bne_iff_ne, bne_iff_ne]
  constructor
  · rintro rfl
    cases hnumeric
  · rintro rfl
    cases hnumeric

theorem not_endsComment_atom {d : Document} (h : ∀ s, d ≠ .string s) : ¬ EndsComment (atom d).toList := by
  have hnull : ¬ EndsComment "null".toList := by decide
  cases d with
  | bool b => cases b <;> decide
  | number n => exact not_endsComment_numeral n
  | string s => exact absurd rfl (h s)
  | _ => exact hnull

mutual

/-- Only strings and keys can end a comment that a document is in. -/
theorem endsComment_compact :
    (d : Document) → (EndsComment (compact d).toList ↔ ∃ text ∈ d.texts, EndsComment text.toList)
  | .null | .bool _ | .number _ => by
    rw [Document.texts, compact]
    exact iff_of_false (not_endsComment_atom nofun) (by simp)
  | .string s => by
    rw [Document.texts, compact, atom, endsComment_quoted]
    simp
  | .array items => by
    rw [Document.texts, compact, endsComment_bracketed (by decide) (by decide)]
    exact endsComment_compactItems items
  | .object members => by
    rw [Document.texts, compact, endsComment_bracketed (by decide) (by decide)]
    exact endsComment_compactMembers members

theorem endsComment_compactItems : (ds : List Document) →
    ((∃ text ∈ compactItems ds, EndsComment text.toList) ↔
      ∃ text ∈ Document.textsOfItems ds, EndsComment text.toList)
  | [] => by simp [compactItems, Document.textsOfItems]
  | d :: ds => by
    rw [compactItems, Document.textsOfItems, List.exists_mem_cons_iff, endsComment_compact d,
      endsComment_compactItems ds]
    simp only [List.mem_append, or_and_right, exists_or]

theorem endsComment_compactMembers : (members : List (String × Document)) →
    ((∃ text ∈ compactMembers members, EndsComment text.toList) ↔
      ∃ text ∈ Document.textsOfMembers members, EndsComment text.toList)
  | [] => by simp [compactMembers, Document.textsOfMembers]
  | (k, d) :: rest => by
    rw [compactMembers, Document.textsOfMembers, List.exists_mem_cons_iff, List.cons_append,
      List.exists_mem_cons_iff, String.append_assoc, String.toList_append, String.toList_append,
      endsComment_append_gap (by decide) (by decide), endsComment_quoted, endsComment_compact d,
      endsComment_compactMembers rest, or_assoc]
    simp only [List.mem_append, or_and_right, exists_or]

end

end Json

end RecordDefinitions
