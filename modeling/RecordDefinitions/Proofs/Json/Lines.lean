import RecordDefinitions.Json.Writer
import RecordDefinitions.Proofs.Text.Pieces

/-!
# Documents on one line

A text that stays on its line can stand in a comment. Whatever a document holds, its compact text
does: line ends inside strings are escaped, and nothing else breaks a line.
-/

namespace RecordDefinitions

namespace Text

/-- The text has no line end in it. -/
def OneLine (text : String) : Prop := '\n' ∉ text.toList

instance (text : String) : Decidable (OneLine text) := inferInstanceAs (Decidable (_ ∉ _))

namespace OneLine

theorem ofList {cs : List Char} (h : '\n' ∉ cs) : OneLine (String.ofList cs) := by
  rwa [OneLine, String.toList_ofList]

theorem append {s t : String} (hs : OneLine s) (ht : OneLine t) : OneLine (s ++ t) := by
  intro h
  rw [String.toList_append] at h
  rcases List.mem_append.mp h with h | h
  · exact hs h
  · exact ht h

theorem intercalate {glue : String} (hglue : OneLine glue) {texts : List String}
    (h : ∀ text ∈ texts, OneLine text) : OneLine (glue.intercalate texts) := by
  intro hmem
  rw [String.toList_intercalate] at hmem
  rcases exists_of_mem_intercalate hmem with hmem | ⟨text, htext, hmem⟩
  · exact hglue hmem
  · obtain ⟨word, hword, rfl⟩ := List.mem_map.mp htext
    exact h word hword hmem

end OneLine

end Text

open Text

/-! ## Numbers -/

namespace Decimal

/-- The characters that numbers are written with. -/
def isNumeric (c : Char) : Bool := c.isDigit || ['-', '+', '.', 'e'].contains c

theorem isNumeric_digits (n : Nat) : ∀ c ∈ digits n, isNumeric c := by
  intro c hc
  rw [isNumeric, isDigit_of_mem_digits hc, Bool.true_or]

theorem isNumeric_signedText (i : Int) : ∀ c ∈ (signedText i).toList, isNumeric c := by
  have htext (n : Nat) : ∀ c ∈ (text n).toList, isNumeric c := by
    rw [text, String.toList_ofList]
    exact isNumeric_digits n
  cases i with
  | ofNat n => exact htext n
  | negSucc n =>
    rw [signedText, String.toList_append]
    exact List.forall_mem_append.mpr ⟨List.all_eq_true.mp (by decide), htext _⟩

theorem isNumeric_positional {ds : List Char} (h : ∀ c ∈ ds, isNumeric c) (point : Int) :
    ∀ c ∈ positional ds point, isNumeric c := by
  have hzeros (n : Nat) : ∀ c ∈ zeros n, isNumeric c := by
    intro c hc
    rw [List.eq_of_mem_replicate hc]
    rfl
  unfold positional
  split
  · exact List.forall_mem_append.mpr
      ⟨List.forall_mem_cons.mpr ⟨rfl, List.forall_mem_cons.mpr ⟨rfl, hzeros _⟩⟩, h⟩
  · split
    · exact List.forall_mem_append.mpr
        ⟨List.forall_mem_append.mpr ⟨h, hzeros _⟩, List.all_eq_true.mp (by decide)⟩
    · exact List.forall_mem_append.mpr ⟨fun c hc => h c (List.mem_of_mem_take hc),
        List.forall_mem_cons.mpr ⟨rfl, fun c hc => h c (List.mem_of_mem_drop hc)⟩⟩

theorem isNumeric_scientific {layout : Layout} (hplus : ∀ c ∈ layout.plus.toList, isNumeric c)
    {ds : List Char} (h : ∀ c ∈ ds, isNumeric c) (exponent : Int) :
    ∀ c ∈ scientific layout ds exponent, isNumeric c := by
  have hmark : ∀ c ∈ (if exponent < 0 then [] else layout.plus.toList), isNumeric c := by
    split
    · exact fun c hc => absurd hc List.not_mem_nil
    · exact hplus
  unfold scientific
  refine List.forall_mem_append.mpr
    ⟨List.forall_mem_append.mpr ⟨?_, List.forall_mem_cons.mpr ⟨rfl, hmark⟩⟩,
      isNumeric_signedText exponent⟩
  rcases ds with _ | ⟨d, _ | ⟨e, ds⟩⟩
  · exact h
  · exact h
  · obtain ⟨hd, hrest⟩ := List.forall_mem_cons.mp h
    exact List.forall_mem_cons.mpr ⟨hd, List.forall_mem_cons.mpr ⟨rfl, hrest⟩⟩

theorem isNumeric_write {layout : Layout} (hplus : ∀ c ∈ layout.plus.toList, isNumeric c)
    (bits : UInt64) : ∀ c ∈ (layout.write bits).toList, isNumeric c := by
  have hscaled (s : Scaled) : ∀ c ∈ s.write layout, isNumeric c := by
    unfold Scaled.write
    simp only
    split
    · exact isNumeric_positional (isNumeric_digits _) _
    · exact isNumeric_scientific hplus (isNumeric_digits _) _
  rw [Layout.write, String.toList_ofList, List.forall_mem_append]
  constructor
  · split
    · exact List.all_eq_true.mp (by decide)
    · exact fun c hc => absurd hc List.not_mem_nil
  · split
    · exact List.all_eq_true.mp (by decide)
    · exact hscaled _

end Decimal

namespace Json

theorem isNumeric_numeral (n : Number) : ∀ c ∈ (numeral n).toList, Decimal.isNumeric c := by
  cases n with
  | integer i => exact Decimal.isNumeric_signedText i
  | real bits => exact Decimal.isNumeric_write (List.all_eq_true.mp (by decide)) bits

end Json

/-! ## Documents -/

namespace Json

theorem newline_not_mem_escaped (c : Char) : '\n' ∉ escaped c := by
  have hself (h : c.toNat ≠ 0x0A) : '\n' ≠ c := by
    rintro rfl
    exact h rfl
  have hhex : ∀ d < 16, '\n' ≠ hexDigit d := by decide
  unfold escaped
  split
  · rename_i heq
    simp [hself (by omega)]
  · rename_i heq
    simp [hself (by omega)]
  · simp
  · simp
  · simp
  · simp
  · simp
  · rename_i hnewline _ _
    split
    · simp [hhex _ (show c.toNat / 16 < 16 by omega), hhex _ (show c.toNat % 16 < 16 by omega)]
    · simpa using hself hnewline

theorem oneLine_quoted (s : String) : OneLine (quoted s) := by
  have hcontent : '\n' ∉ s.toList.flatMap escaped := by
    intro h
    obtain ⟨c, -, hc⟩ := List.mem_flatMap.mp h
    exact newline_not_mem_escaped c hc
  exact (OneLine.append (by decide) (.ofList hcontent)).append (by decide)

theorem oneLine_atom (d : Document) : OneLine (atom d) := by
  have hnull : OneLine "null" := by decide
  cases d with
  | bool b => cases b <;> decide
  | number n => exact fun h => absurd (isNumeric_numeral n _ h) (by decide)
  | string s => exact oneLine_quoted s
  | null => exact hnull
  | array items => exact hnull
  | object members => exact hnull

mutual

theorem oneLine_compact : (d : Document) → OneLine (compact d)
  | .null => oneLine_atom .null
  | .bool b => oneLine_atom (.bool b)
  | .number n => oneLine_atom (.number n)
  | .string s => oneLine_atom (.string s)
  | .array items => by
    rw [compact]
    exact (OneLine.append (by decide)
      (.intercalate (by decide) (oneLine_compactItems items))).append (by decide)
  | .object members => by
    rw [compact]
    exact (OneLine.append (by decide)
      (.intercalate (by decide) (oneLine_compactMembers members))).append (by decide)

theorem oneLine_compactItems : (ds : List Document) → ∀ text ∈ compactItems ds, OneLine text
  | [] => nofun
  | d :: ds => by
    rw [compactItems]
    exact List.forall_mem_cons.mpr ⟨oneLine_compact d, oneLine_compactItems ds⟩

theorem oneLine_compactMembers : (members : List (String × Document)) →
    ∀ text ∈ compactMembers members, OneLine text
  | [] => nofun
  | (k, d) :: rest => by
    rw [compactMembers]
    refine List.forall_mem_cons.mpr ⟨?_, oneLine_compactMembers rest⟩
    exact ((oneLine_quoted k).append (by decide)).append (oneLine_compact d)

end

end Json

end RecordDefinitions
