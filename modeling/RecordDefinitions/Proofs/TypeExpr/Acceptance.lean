import RecordDefinitions.Proofs.TypeExpr.Derivations

/-!
# Types are read by their grammar

A text that has a derivation is read as the type of this one, and every other text is
malformed. Derivations and the reader are compared cut by cut.
-/

namespace RecordDefinitions.TypeExpr

/-! ## Reading -/

section Alternatives

theorem AlternativeText.isNull {a : Option Member} {piece : List Char}
    (h : AlternativeText a piece) : TypeExpr.isNull piece = a.isNone := by
  cases h with
  | null h => exact beq_iff_eq.mpr h
  | member h => exact beq_eq_false_iff_ne.mpr h.ne_null

theorem any_isNull {as : List (Option Member)} {pieces : List (List Char)}
    (h : List.Forall₂ AlternativeText as pieces) :
    pieces.any isNull = as.any (·.isNone) := by
  induction h with
  | nil => rfl
  | cons ha _ ih => rw [List.any_cons, List.any_cons, ha.isNull, ih]

/-- The members of a row of alternatives are read one by one. -/
theorem mapM_pieces_iff {read : List Char → Except Fault TypeExpr} {pieces : List (List Char)}
    {types : List TypeExpr}
    (hread : ∀ piece ∈ pieces, ∀ t,
      read piece = .ok t ↔ ∃ m, MemberText m (Text.trim piece) ∧ m.type = t) :
    (pieces.filter (!isNull ·)).mapM read = .ok types ↔
      ∃ as, List.Forall₂ AlternativeText as pieces ∧ Member.types as.reduceOption = types := by
  induction pieces generalizing types with
  | nil =>
    constructor
    · intro h
      cases h
      exact ⟨[], .nil, rfl⟩
    · rintro ⟨_, ⟨⟩, rfl⟩
      rfl
  | cons piece pieces ih =>
    obtain ⟨hfirst, hrest⟩ := List.forall_mem_cons.mp hread
    cases hnull : isNull piece with
    | true =>
      rw [List.filter_cons_of_neg (by simp [hnull]), ih hrest]
      constructor
      · rintro ⟨as, has, htypes⟩
        exact ⟨none :: as, .cons (.null (beq_iff_eq.mp hnull)) has, htypes⟩
      · rintro ⟨_, _ | @⟨a, _, as, _, ha, has⟩, htypes⟩
        obtain rfl : a = none := by
          rw [← Option.isNone_iff_eq_none, ← ha.isNull, hnull]
        exact ⟨as, has, htypes⟩
    | false =>
      rw [List.filter_cons_of_pos (by simp [hnull]), List.mapM_cons]
      constructor
      · intro h
        obtain ⟨t, ht, h⟩ := bind_eq_ok_iff.mp h
        obtain ⟨ts, hts, h⟩ := bind_eq_ok_iff.mp h
        cases h
        obtain ⟨m, hm, rfl⟩ := (hfirst t).mp ht
        obtain ⟨as, has, rfl⟩ := (ih hrest).mp hts
        exact ⟨some m :: as, .cons (.member hm) has, rfl⟩
      · rintro ⟨_, _ | @⟨a, _, as, _, ha, has⟩, rfl⟩
        cases ha with
        | null ha => rw [isNull, ha] at hnull; cases hnull
        | @member m _ ha =>
          rw [(hfirst m.type).mpr ⟨m, ha, rfl⟩, (ih hrest).mpr ⟨as, has, rfl⟩]
          rfl

end Alternatives

section Phrases

theorem types_reduceOption_eq_nil_iff {as : List (Option Member)} :
    Member.types as.reduceOption = [] ↔ ∀ a ∈ as, a = none := by
  rw [Member.types_eq, List.map_eq_nil_iff, List.reduceOption, List.filterMap_eq_nil_iff]
  rfl

/-- Alternatives that are all `null` leave `mixed`, with null. -/
theorem Phrase.mixed_of_forall_null {p : Phrase} (hne : p.alternatives ≠ [])
    (h : ∀ a ∈ p.alternatives, a = none) : p.type = scalar .mixed ∧ p.nullable = true := by
  constructor
  · rw [Phrase.type, types_reduceOption_eq_nil_iff.mpr h]
    rfl
  · obtain ⟨a, ha⟩ := List.exists_mem_of_ne_nil _ hne
    have hany : p.alternatives.any (·.isNone) :=
      List.any_eq_true.mpr ⟨a, ha, Option.isNone_iff_eq_none.mpr (h a ha)⟩
    rw [Phrase.nullable, hany, Bool.or_true]

theorem result_of_alternatives {as : List (Option Member)} {pieces : List (List Char)}
    (marked : Bool) (hne : pieces ≠ []) (has : List.Forall₂ AlternativeText as pieces) :
    (if (Member.types as.reduceOption).isEmpty then pure (scalar .mixed, true)
      else pure (unionOf (Member.types as.reduceOption), marked || pieces.any isNull) :
        Except Fault (TypeExpr × Bool)) =
      .ok (Phrase.type ⟨marked, as⟩, Phrase.nullable ⟨marked, as⟩) := by
  rw [any_isNull has]
  split_ifs with hnone
  · have has_ne : as ≠ [] := by
      rintro rfl
      exact hne (List.forall₂_nil_left_iff.mp has)
    obtain ⟨htype, hnull⟩ := Phrase.mixed_of_forall_null (p := ⟨marked, as⟩) has_ne
      (types_reduceOption_eq_nil_iff.mp (List.isEmpty_iff.mp hnone))
    rw [htype, hnull]
    rfl
  · rfl

theorem Phrase.nullable_eq_false_iff {p : Phrase} :
    p.nullable = false ↔ ∃ ms : List Member, p = ⟨false, ms.map some⟩ := by
  constructor
  · intro h
    obtain ⟨marked, as⟩ := p
    obtain ⟨rfl, hnone⟩ := Bool.or_eq_false_iff.mp h
    have hmembers : as.reduceOption.map some = as := by
      rw [List.reduceOption, List.map_filterMap_some_eq_filter_map_isSome, List.map_id,
        List.filter_eq_self]
      intro a ha
      rw [← Option.not_isNone, eq_false_of_ne_true (List.any_eq_false.mp hnone a ha), Bool.not_false]
    exact ⟨as.reduceOption, by rw [hmembers]⟩
  · rintro ⟨ms, rfl⟩
    simp [Phrase.nullable]

theorem Phrase.type_of_members (ms : List Member) :
    Phrase.type ⟨false, ms.map some⟩ = unionOf (Member.types ms) := by
  simp [Phrase.type, List.reduceOption]

theorem Phrase.derives_of_members {ms : List Member} {text : List Char} :
    Phrase.Derives ⟨false, ms.map some⟩ text ↔ AlternativesText (ms.map some) (Text.trim text) := by
  constructor
  · rintro ⟨body, h, htrim⟩
    rw [htrim]
    exact h
  · intro h
    exact ⟨_, h, rfl⟩

end Phrases

/-- The key in front of the comma decides between lists and maps. -/
theorem readCut_keyed {fuel : Nat} {whole part word element : List Char} {t : TypeExpr} :
    readCut fuel whole part (.brackets [word, element]) = .ok t ↔
      ∃ key : ArrayKey, Text.trim word = key.word ∧
        (readElement fuel whole element).map key.collection = .ok t := by
  have hother : ArrayKey.int.word ≠ "string".toList := by decide
  rw [readCut]
  constructor
  · intro h
    split_ifs at h with hstring hint
    · exact ⟨.string, hstring, h⟩
    · exact ⟨.int, hint, h⟩
  · rintro ⟨key, hword, h⟩
    rw [hword]
    cases key with
    | int =>
      rw [if_neg hother, if_pos (by rfl)]
      exact h
    | string =>
      rw [if_pos (by rfl)]
      exact h

theorem readCut_name {fuel : Nat} {whole part : List Char} {t : TypeExpr} :
    readCut fuel whole part .name = .ok t ↔ ∃ m, Fits part .name m ∧ m.type = t := by
  have hread : readCut fuel whole part .name = .ok t ↔ readName? part = some t := by
    rw [readCut]
    cases readName? part <;> simp
  rw [hread, readName?_eq_some_iff]
  constructor
  · rintro ⟨m, hm, rfl⟩
    exact ⟨m, .name hm, rfl⟩
  · rintro ⟨m, hfits, rfl⟩
    cases hfits with
    | name hm => exact ⟨m, hm, rfl⟩

/-- With fuel for its length, a text is read as what it is derived from. -/
structure ReadsDerived (fuel : Nat) : Prop where
  text {text : List Char} {t : TypeExpr} {nullable : Bool} (hfuel : 3 * text.length + 3 ≤ fuel) :
    readText fuel text = .ok (t, nullable) ↔
      ∃ p : Phrase, p.Derives text ∧ p.type = t ∧ p.nullable = nullable
  member {whole part : List Char} {t : TypeExpr} (hfuel : 3 * part.length + 2 ≤ fuel)
    (hpart : Text.trim part = part) :
    readMember fuel whole part = .ok t ↔ ∃ m, MemberText m part ∧ m.type = t
  element {whole text : List Char} {t : TypeExpr} (hfuel : 3 * text.length + 4 ≤ fuel) :
    readElement fuel whole text = .ok t ↔
      ∃ ms, AlternativesText (ms.map some) (Text.trim text) ∧ unionOf (Member.types ms) = t

section Step

variable {fuel : Nat} (ih : ReadsDerived fuel)
include ih

theorem readElement_eq_ok_iff {whole text : List Char} {t : TypeExpr}
    (hfuel : 3 * text.length + 4 ≤ fuel + 1) :
    readElement (fuel + 1) whole text = .ok t ↔
      ∃ ms, AlternativesText (ms.map some) (Text.trim text) ∧ unionOf (Member.types ms) = t := by
  rw [readElement, bind_eq_ok_iff]
  constructor
  · rintro ⟨⟨type, nullable⟩, htext, h⟩
    dsimp only at h
    split_ifs at h with hnullable
    · cases h
    · cases h
      obtain ⟨p, hp, rfl, hnull⟩ := (ih.text (by omega)).mp htext
      rw [eq_false_of_ne_true hnullable, Phrase.nullable_eq_false_iff] at hnull
      obtain ⟨ms, rfl⟩ := hnull
      exact ⟨ms, Phrase.derives_of_members.mp hp, (Phrase.type_of_members ms).symm⟩
  · rintro ⟨ms, hms, rfl⟩
    have htext : readText fuel text = .ok (unionOf (Member.types ms), false) :=
      (ih.text (by omega)).mpr ⟨_, Phrase.derives_of_members.mpr hms, Phrase.type_of_members ms,
        Phrase.nullable_eq_false_iff.mpr ⟨ms, rfl⟩⟩
    exact ⟨_, htext, rfl⟩

theorem readText_eq_ok_iff {text : List Char} {t : TypeExpr} {nullable : Bool}
    (hfuel : 3 * text.length + 3 ≤ fuel + 1) :
    readText (fuel + 1) text = .ok (t, nullable) ↔
      ∃ p : Phrase, p.Derives text ∧ p.type = t ∧ p.nullable = nullable := by
  have hlength := (length_unmarked_le (Text.trim text)).trans (Text.length_trim_le text)
  simp only [derives_iff]
  rw [readText_succ]
  generalize unmarked (Text.trim text) = front at hlength
  obtain ⟨body, marked⟩ := front
  dsimp only at hlength ⊢
  have hread : ∀ piece ∈ topLevelPieces '|' 0 body, ∀ t,
      readMember fuel text (Text.trim piece) = .ok t ↔
        ∃ m, MemberText m (Text.trim piece) ∧ m.type = t := by
    intro piece hpiece t
    have hpieces := length_le_of_mem_topLevelPieces hpiece
    have htrim := Text.length_trim_le piece
    exact ih.member (by omega) (Text.trim_trim piece)
  by_cases hempty : body.isEmpty
  · rw [if_pos hempty]
    constructor
    · intro h
      cases h
    · rintro ⟨p, ⟨hp, -⟩, -⟩
      obtain rfl := List.isEmpty_iff.mp hempty
      obtain ⟨c, rest, hnil, -⟩ := hp.starts
      cases hnil
  rw [if_neg hempty, bind_eq_ok_iff]
  simp only [mapM_pieces_iff hread, alternativesText_iff]
  -- Both sides are about the same alternatives; what is left is the result that they give.
  have hresult {as : List (Option Member)}
      (has : List.Forall₂ AlternativeText as (topLevelPieces '|' 0 body)) :=
    result_of_alternatives marked (topLevelPieces_ne_nil _ _ _) has
  constructor
  · rintro ⟨_, ⟨as, has, rfl⟩, h⟩
    rw [hresult has] at h
    cases h
    exact ⟨⟨marked, as⟩, ⟨has, rfl⟩, rfl, rfl⟩
  · rintro ⟨⟨_, as⟩, ⟨has, rfl⟩, rfl, rfl⟩
    exact ⟨_, ⟨as, has, rfl⟩, hresult has⟩

theorem readCut_suffixed {whole part inner : List Char} {t : TypeExpr}
    (hfuel : 3 * inner.length + 2 ≤ fuel) (hinner : Text.trim inner = inner) :
    readCut fuel whole part (.suffixed inner) = .ok t ↔
      ∃ m, Fits part (.suffixed inner) m ∧ m.type = t := by
  constructor
  · intro h
    obtain ⟨e, he, rfl⟩ := map_eq_ok_iff.mp h
    obtain ⟨m, hm, rfl⟩ := (ih.member hfuel hinner).mp he
    exact ⟨_, .suffixed hm, rfl⟩
  · rintro ⟨_, hfits, rfl⟩
    cases hfits with
    | suffixed hm =>
      exact map_eq_ok_iff.mpr ⟨_, (ih.member hfuel hinner).mpr ⟨_, hm, rfl⟩, rfl⟩

theorem readCut_brackets {whole part : List Char} {pieces : List (List Char)} {t : TypeExpr}
    (hfuel : ∀ piece ∈ pieces, 3 * piece.length + 4 ≤ fuel) :
    readCut fuel whole part (.brackets pieces) = .ok t ↔
      ∃ m, Fits part (.brackets pieces) m ∧ m.type = t := by
  have hread {element : List Char} (h : element ∈ pieces) {e : TypeExpr} :
      readElement fuel whole element = .ok e ↔
        ∃ ms, AlternativesText (ms.map some) (Text.trim element) ∧
          unionOf (Member.types ms) = e :=
    ih.element (hfuel element h)
  -- Only one or two pieces can be read; the others are refused on both sides.
  rcases pieces with _ | ⟨first, _ | ⟨second, _ | ⟨third, rest⟩⟩⟩
  · constructor
    · intro h
      cases h
    · rintro ⟨_, ⟨⟩, -⟩
  · constructor
    · intro h
      obtain ⟨e, he, rfl⟩ := map_eq_ok_iff.mp h
      obtain ⟨ms, hms, rfl⟩ := (hread List.mem_cons_self).mp he
      exact ⟨_, .array hms, rfl⟩
    · rintro ⟨_, hfits, rfl⟩
      cases hfits with
      | array hms =>
        exact map_eq_ok_iff.mpr ⟨_, (hread List.mem_cons_self).mpr ⟨_, hms, rfl⟩, rfl⟩
  · have hsecond : second ∈ [first, second] := by simp
    rw [readCut_keyed]
    constructor
    · rintro ⟨key, hword, h⟩
      obtain ⟨e, he, rfl⟩ := map_eq_ok_iff.mp h
      obtain ⟨ms, hms, rfl⟩ := (hread hsecond).mp he
      exact ⟨_, .keyedArray hword hms, rfl⟩
    · rintro ⟨_, hfits, rfl⟩
      cases hfits with
      | keyedArray hword hms =>
        exact ⟨_, hword, map_eq_ok_iff.mpr ⟨_, (hread hsecond).mpr ⟨_, hms, rfl⟩, rfl⟩⟩
  · constructor
    · intro h
      cases h
    · rintro ⟨_, ⟨⟩, -⟩

theorem readMember_eq_ok_iff {whole part : List Char} {t : TypeExpr}
    (hfuel : 3 * part.length + 2 ≤ fuel + 1) (hpart : Text.trim part = part) :
    readMember (fuel + 1) whole part = .ok t ↔ ∃ m, MemberText m part ∧ m.type = t := by
  rcases eq_or_ne part [] with rfl | hne
  · constructor
    · intro h
      cases h
    · rintro ⟨m, hm, -⟩
      exact absurd rfl hm.ne_nil
  have hlength : ∀ inner ∈ (cut part).parts, inner.length + 2 ≤ part.length :=
    fun inner => length_of_mem_parts_cut
  rw [readMember_succ hne]
  simp only [memberText_iff hpart]
  cases hcut : cut part with
  | suffixed inner =>
    rw [hcut] at hlength
    have hinner := hlength inner List.mem_cons_self
    exact readCut_suffixed ih (by omega) (trim_of_cut_suffixed hcut)
  | bareArray =>
    constructor
    · intro h
      cases h
      exact ⟨_, .bareArray, rfl⟩
    · rintro ⟨_, ⟨⟩, rfl⟩
      rfl
  | brackets pieces =>
    rw [hcut] at hlength
    refine readCut_brackets ih fun piece hpiece => ?_
    have hpiece := hlength piece hpiece
    omega
  | name => exact readCut_name

end Step

theorem readsDerived (fuel : Nat) : ReadsDerived fuel := by
  induction fuel with
  | zero => constructor <;> intros <;> omega
  | succ fuel ih =>
    exact ⟨readText_eq_ok_iff ih, readMember_eq_ok_iff ih, readElement_eq_ok_iff ih⟩

/-! ## Failures -/

/-- The text that is named is no type. -/
def Fault.IsMalformed (e : Fault) : Prop := ∃ text, e = .malformed text

/-- Whatever is not read is malformed. -/
structure FailsMalformed (fuel : Nat) : Prop where
  text {text : List Char} {e : Fault} : readText fuel text = .error e → e.IsMalformed
  member {whole part : List Char} {e : Fault} :
    readMember fuel whole part = .error e → e.IsMalformed
  element {whole text : List Char} {e : Fault} :
    readElement fuel whole text = .error e → e.IsMalformed

theorem isMalformed_of_error {α : Type} {text : String} {e : Fault}
    (h : (.error (.malformed text) : Except Fault α) = .error e) : e.IsMalformed :=
  ⟨text, (Except.error.inj h).symm⟩

theorem failsMalformed_zero : FailsMalformed 0 where
  text h := isMalformed_of_error h
  member h := isMalformed_of_error h
  element h := isMalformed_of_error h

section Failures

variable {fuel : Nat} (ih : FailsMalformed fuel)
include ih

theorem isMalformed_of_readText {text : List Char} {e : Fault}
    (h : readText (fuel + 1) text = .error e) : e.IsMalformed := by
  rw [readText_succ] at h
  dsimp only at h
  split_ifs at h
  · exact isMalformed_of_error h
  · rcases bind_eq_error_iff.mp h with hmembers | ⟨members, -, h⟩
    · obtain ⟨piece, -, hpiece⟩ := exists_of_mapM_error hmembers
      exact ih.member hpiece
    · split_ifs at h <;> cases h

theorem isMalformed_of_readCut {whole part : List Char} {c : Cut} {e : Fault}
    (h : readCut fuel whole part c = .error e) : e.IsMalformed := by
  unfold readCut at h
  split at h
  · exact ih.member (map_eq_error_iff.mp h)
  · cases h
  · exact ih.element (map_eq_error_iff.mp h)
  · split_ifs at h
    · exact ih.element (map_eq_error_iff.mp h)
    · exact ih.element (map_eq_error_iff.mp h)
    · exact isMalformed_of_error h
  · exact isMalformed_of_error h
  · split at h
    · cases h
    · exact isMalformed_of_error h

theorem isMalformed_of_readMember {whole part : List Char} {e : Fault}
    (h : readMember (fuel + 1) whole part = .error e) : e.IsMalformed := by
  rcases eq_or_ne part [] with rfl | hne
  · exact isMalformed_of_error h
  · rw [readMember_succ hne] at h
    exact isMalformed_of_readCut ih h

theorem isMalformed_of_readElement {whole text : List Char} {e : Fault}
    (h : readElement (fuel + 1) whole text = .error e) : e.IsMalformed := by
  rw [readElement] at h
  rcases bind_eq_error_iff.mp h with htext | ⟨⟨t, nullable⟩, -, h⟩
  · exact ih.text htext
  · dsimp only at h
    split_ifs at h
    · exact isMalformed_of_error h
    · cases h

end Failures

theorem failsMalformed (fuel : Nat) : FailsMalformed fuel := by
  induction fuel with
  | zero => exact failsMalformed_zero
  | succ fuel ih =>
    exact ⟨isMalformed_of_readText ih, isMalformed_of_readMember ih, isMalformed_of_readElement ih⟩

/-! ## The grammar decides -/

/-- A text is read if and only if it has a derivation. It has at most one, and is read as the
type of this one, with null if a question mark or an alternative `null` occurs in it; if all
alternatives are `null`, the type is `mixed`. A text without a derivation is malformed. -/
theorem readNullable_iff_derives (text : String) :
    (∀ t nullable, readNullable text = .ok (t, nullable) ↔
      ∃ p : Phrase, p.Derives text.toList ∧ p.type = t ∧ p.nullable = nullable) ∧
    (∀ p q : Phrase, p.Derives text.toList → q.Derives text.toList → p = q) ∧
    (∀ p : Phrase, p.Derives text.toList → (∀ a ∈ p.alternatives, a = none) →
      readNullable text = .ok (scalar .mixed, true)) ∧
    ((∀ p : Phrase, ¬ p.Derives text.toList) →
      ∃ part, readNullable text = .error (.malformed part)) := by
  have hread (t : TypeExpr) (nullable : Bool) : readNullable text = .ok (t, nullable) ↔
      ∃ p : Phrase, p.Derives text.toList ∧ p.type = t ∧ p.nullable = nullable :=
    (readsDerived _).text le_rfl
  refine ⟨hread, fun p q hp hq => hp.unique hq, fun p hp hnull => ?_, fun hnone => ?_⟩
  · exact (hread _ _).mpr ⟨p, hp, Phrase.mixed_of_forall_null (derives_iff.mp hp).1.ne_nil hnull⟩
  · cases hresult : readNullable text with
    | ok result =>
      obtain ⟨p, hp, -⟩ := (hread result.1 result.2).mp hresult
      exact absurd hp (hnone p)
    | error e =>
      obtain ⟨part, rfl⟩ := (failsMalformed _).text hresult
      exact ⟨part, rfl⟩

end RecordDefinitions.TypeExpr
