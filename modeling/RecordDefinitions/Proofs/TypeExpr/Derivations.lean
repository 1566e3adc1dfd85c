import RecordDefinitions.Proofs.TypeExpr.Grammar

/-!
# Derivations and cuts

The reader cuts a text from outside: brackets at its end, bars and commas at depth zero, a
prefix. Each cut falls where a derivation puts two texts together, so that a text has at
most one derivation.
-/

namespace RecordDefinitions.TypeExpr

/-! ## Cuts -/

/-- The derivations of a part that is cut in this way. -/
inductive Fits (part : List Char) : Cut → Member → Prop
  | suffixed {inner : List Char} {element : Member} :
    MemberText element inner → Fits part (.suffixed inner) (.suffixed element)
  | bareArray : Fits part .bareArray .bareArray
  | array {element : List Char} {alternatives : List Member} :
    AlternativesText (alternatives.map some) (Text.trim element) →
      Fits part (.brackets [element]) (.array alternatives)
  | keyedArray {key : ArrayKey} {word element : List Char} {alternatives : List Member} :
    Text.trim word = key.word → AlternativesText (alternatives.map some) (Text.trim element) →
      Fits part (.brackets [word, element]) (.keyedArray key alternatives)
  | name {m : Member} : NameText m part → Fits part .name m

section Cutting

variable {m : Member} {part : List Char}

theorem cut_name (h : NameText m part) : cut part = .name := by
  refine cut_word h.isWord ?_
  rintro rfl
  cases readName?_eq_some_iff.mpr ⟨m, h, rfl⟩

theorem passes_element {alternatives : List (Option Member)} {element : List Char}
    (h : AlternativesText alternatives (Text.trim element)) : Passes ',' 0 element :=
  passes_of_trim (Or.inr rfl) (h.passes (Or.inr rfl) le_rfl fun hbar => absurd hbar (by decide))

theorem cut_array {alternatives : List (Option Member)} {element : List Char}
    (h : AlternativesText alternatives (Text.trim element)) :
    cut ("array".toList ++ ('<' :: element ++ ['>'])) = .brackets [element] := by
  rw [cut_brackets, topLevelPieces_of_passes (passes_element h)]

theorem cut_keyedArray {key : ArrayKey} {alternatives : List (Option Member)}
    {word element : List Char} (hword : Text.trim word = key.word)
    (h : AlternativesText alternatives (Text.trim element)) :
    cut ("array".toList ++ ('<' :: (word ++ ',' :: element) ++ ['>'])) =
      .brackets [word, element] := by
  have hkey : Passes ',' 0 (Text.trim word) := by
    rw [hword]
    exact key.isWord.passes rfl
  rw [cut_brackets, topLevelPieces_cut (passes_of_trim (Or.inr rfl) hkey),
    topLevelPieces_of_passes (passes_element h)]

theorem cut_suffixed {blanks : List Char} (h : MemberText m part)
    (hblanks : ∀ c ∈ blanks, Text.isBlank c) :
    cut (part ++ blanks ++ ['[', ']']) = .suffixed part := by
  rw [cut_suffix, Text.trim_append_of_blank h.trim h.ne_nil hblanks]

/-- A member is cut where it is put together. -/
theorem MemberText.fits (h : MemberText m part) : Fits part (cut part) m := by
  cases h with
  | name h =>
    rw [cut_name h]
    exact .name h
  | bareArray => exact .bareArray
  | array h =>
    rw [cut_array h]
    exact .array h
  | keyedArray hword h =>
    rw [cut_keyedArray hword h]
    exact .keyedArray hword h
  | suffixed h hblanks =>
    rw [cut_suffixed h hblanks]
    exact .suffixed h

theorem Fits.memberText (hpart : Text.trim part = part) (h : Fits part (cut part) m) :
    MemberText m part := by
  unfold cut at h
  split at h
  · next inner hinner =>
    obtain rfl := Text.before?_eq_some_iff.mp hinner
    obtain ⟨blanks, hblanks, htrim⟩ := Text.exists_eq_trim_append (List.cons_ne_nil _ _) hpart
    cases h with
    | suffixed h =>
      rw [htrim]
      exact .suffixed h hblanks
  · split_ifs at h with harray
    · cases h
      rw [harray]
      exact .bareArray
    · split at h
      · next inner hinner =>
        obtain ⟨rest, hrest, hinner⟩ := Option.bind_eq_some_iff.mp hinner
        rw [Text.before?_eq_some_iff] at hinner
        rw [Text.after?_eq_some_iff, hinner] at hrest
        have hjoined := joined_topLevelPieces ',' 0 inner
        rw [hrest]
        generalize topLevelPieces ',' 0 inner = pieces at h hjoined
        cases h with
        | array h =>
          obtain rfl := hjoined
          exact .array h
        | keyedArray hword h =>
          obtain rfl := hjoined
          exact .keyedArray hword h
      · cases h with
        | name h => exact .name h

theorem memberText_iff (hpart : Text.trim part = part) :
    MemberText m part ↔ Fits part (cut part) m :=
  ⟨MemberText.fits, Fits.memberText hpart⟩

end Cutting

/-! ## One derivation -/

section Unique

theorem MemberText.ne_null {m : Member} {text : List Char} (h : MemberText m text) :
    text ≠ "null".toList := by
  rintro rfl
  cases h.fits with
  | name h => cases readName?_eq_some_iff.mpr ⟨m, h, rfl⟩

theorem eq_of_map_some {ms ms' : List Member} (h : ms.map some = ms'.map some) : ms = ms' :=
  List.map_injective_iff.mpr (Option.some_injective Member) h

theorem ArrayKey.eq_of_word {key key' : ArrayKey} (h : key.word = key'.word) : key = key' := by
  cases key <;> cases key' <;> first | rfl | cases h

mutual

/-- The cut of the text leaves no choice between the productions, and the parts that it leaves
have one derivation each. -/
theorem MemberText.unique {m m' : Member} {text : List Char} :
    MemberText m text → MemberText m' text → m = m'
  | .name h, h' => by
    have hfits := h'.fits
    rw [cut_name h] at hfits
    cases hfits with
    | name hname => exact h.unique hname
  | .bareArray, h' => by
    cases h'.fits
    rfl
  | .array h, h' => by
    have hfits := h'.fits
    rw [cut_array h] at hfits
    cases hfits with
    | array helement => rw [eq_of_map_some (h.unique helement)]
  | .keyedArray hword h, h' => by
    have hfits := h'.fits
    rw [cut_keyedArray hword h] at hfits
    cases hfits with
    | keyedArray hkey helement =>
      rw [ArrayKey.eq_of_word (hword.symm.trans hkey), eq_of_map_some (h.unique helement)]
  | .suffixed h hblanks, h' => by
    have hfits := h'.fits
    rw [cut_suffixed h hblanks] at hfits
    cases hfits with
    | suffixed hinner => rw [h.unique hinner]

theorem AlternativeText.unique {a a' : Option Member} {text : List Char} :
    AlternativeText a text → AlternativeText a' text → a = a'
  | .null _, .null _ => rfl
  | .null h, .member h' => absurd h h'.ne_null
  | .member h, .null h' => absurd h' h.ne_null
  | .member h, .member h' => congrArg some (h.unique h')

theorem AlternativesText.unique {as as' : List (Option Member)} {text : List Char} :
    AlternativesText as text → AlternativesText as' text → as = as'
  | .one h, h' => by
    have hpieces := h'.forall₂_pieces
    rw [topLevelPieces_of_passes (h.passes (Or.inl rfl) le_rfl)] at hpieces
    cases hpieces with
    | cons hfirst hrest =>
      cases hrest
      rw [h.unique hfirst]
  | .more h hrest, h' => by
    have hpieces := h'.forall₂_pieces
    rw [topLevelPieces_cut (h.passes (Or.inl rfl) le_rfl)] at hpieces
    cases hpieces with
    | cons hfirst hothers => rw [h.unique hfirst, hrest.unique (alternativesText_iff.mpr hothers)]

end

end Unique

/-! ## Whole texts -/

section Phrases

variable {p : Phrase} {text : List Char}

theorem AlternativeText.starts {a : Option Member} (h : AlternativeText a text) :
    Text.Starts (fun c => Text.isBlank c ∨ isWordCharacter c) text := by
  apply Text.starts_of_trim
  cases h with
  | null h =>
    rw [h]
    exact isWord_null.starts
  | member h => exact h.starts

theorem AlternativesText.starts {as : List (Option Member)} (h : AlternativesText as text) :
    Text.Starts (fun c => Text.isBlank c ∨ isWordCharacter c) text := by
  cases h with
  | one h => exact h.starts
  | more h => exact h.starts.append _

theorem AlternativesText.ne_nil {as : List (Option Member)} (h : AlternativesText as text) :
    as ≠ [] := by
  cases h <;> exact List.cons_ne_nil _ _

/-- No alternative starts with a question mark. -/
theorem AlternativesText.unmarked {as : List (Option Member)} (h : AlternativesText as text) :
    unmarked text = (text, false) := by
  refine unmarked_of_starts (h.starts.imp ?_)
  rintro c (hc | hc) rfl <;> cases hc

theorem derives_iff :
    p.Derives text ↔
      AlternativesText p.alternatives (unmarked (Text.trim text)).1 ∧
        p.marked = (unmarked (Text.trim text)).2 := by
  constructor
  · rintro ⟨body, h, htrim⟩
    cases hmarked : p.marked with
    | true =>
      rw [hmarked, if_pos rfl] at htrim
      rw [htrim]
      exact ⟨h, rfl⟩
    | false =>
      rw [hmarked, if_neg Bool.false_ne_true] at htrim
      rw [htrim, h.unmarked]
      exact ⟨h, rfl⟩
  · rintro ⟨h, hmarked⟩
    refine ⟨_, h, ?_⟩
    rw [hmarked]
    exact (append_unmarked _).symm

end Phrases

theorem Phrase.Derives.unique {p q : Phrase} {text : List Char} (hp : p.Derives text)
    (hq : q.Derives text) : p = q := by
  obtain ⟨hp, hpmarked⟩ := derives_iff.mp hp
  obtain ⟨hq, hqmarked⟩ := derives_iff.mp hq
  obtain ⟨marked, as⟩ := p
  obtain ⟨marked', as'⟩ := q
  cases hp.unique hq
  cases hpmarked.trans hqmarked.symm
  rfl

end RecordDefinitions.TypeExpr
