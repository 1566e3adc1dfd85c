import RecordDefinitions.Proofs.TypeExpr.Reading

/-!
# The grammar of type texts

A derivation of a text is a tree of the productions that give it, and has a type. The
relations between trees and texts are the grammar. They say how texts are put
together and nothing about how a text is cut.
-/

namespace RecordDefinitions.TypeExpr

/-! ## Derivations -/

/-- What may stand for the type of the keys of an array. -/
inductive ArrayKey where
  | int
  | string
  deriving DecidableEq

/-- The word for a key. -/
def ArrayKey.word : ArrayKey → List Char
  | int => "int".toList
  | string => "string".toList

/-- A list for integer keys and a map for others. -/
def ArrayKey.collection : ArrayKey → TypeExpr → TypeExpr
  | int => list
  | string => map

/-- The derivations of an alternative other than `null`. -/
inductive Member where
  | scalar (kind : ScalarKind)
  | definition (identifiers : List (List Char))
  | external (identifiers : List (List Char))
  /-- The word `array` alone. -/
  | bareArray
  /-- An `array` with the alternatives of its elements in angle brackets. -/
  | array (alternatives : List Member)
  | keyedArray (key : ArrayKey) (alternatives : List Member)
  /-- A member with a pair of square brackets after it. -/
  | suffixed (element : Member)

mutual

/-- The type that a derivation gives. -/
def Member.type : Member → TypeExpr
  | .scalar kind => .scalar kind
  | .definition identifiers => .definition (String.ofList (Text.joined '.' identifiers))
  | .external identifiers => .external (String.ofList (Text.joined '\\' identifiers))
  | .bareArray => .map (.scalar .mixed)
  | .array alternatives => .list (unionOf (Member.types alternatives))
  | .keyedArray key alternatives => key.collection (unionOf (Member.types alternatives))
  | .suffixed element => .list element.type

def Member.types : List Member → List TypeExpr
  | [] => []
  | m :: ms => m.type :: Member.types ms

end

/-- The derivations of a whole text. An alternative that is no member is `null`. -/
structure Phrase where
  /-- A question mark stands in front. -/
  marked : Bool
  alternatives : List (Option Member)

/-- The union of the types of the members, which is `mixed` when there are none. -/
def Phrase.type (p : Phrase) : TypeExpr := unionOf (Member.types p.alternatives.reduceOption)

/-- A question mark or an alternative `null` allows null. -/
def Phrase.nullable (p : Phrase) : Bool := p.marked || p.alternatives.any (·.isNone)

/-- Keywords, dotted identifiers whose last one starts with a capital letter, and identifiers
that each follow a backslash. -/
inductive NameText : Member → List Char → Prop
  | scalar {kind : ScalarKind} {word : String} :
    ScalarKind.ofKeyword? word = some kind → NameText (.scalar kind) word.toList
  | definition {identifiers : List (List Char)} {c : Char} {rest : List Char} :
    (∀ i ∈ identifiers, isIdentifier i) → identifiers.getLast? = some (c :: rest) → c.isUpper →
      NameText (.definition identifiers) (Text.joined '.' identifiers)
  | external {identifiers : List (List Char)} :
    identifiers ≠ [] → (∀ i ∈ identifiers, isIdentifier i) →
      NameText (.external identifiers) (identifiers.flatMap fun i => '\\' :: i)

mutual

/-- The texts of a member, without blanks around. -/
inductive MemberText : Member → List Char → Prop
  | name {m : Member} {text : List Char} : NameText m text → MemberText m text
  | bareArray : MemberText .bareArray "array".toList
  | array {alternatives : List Member} {element : List Char} :
    AlternativesText (alternatives.map some) (Text.trim element) →
      MemberText (.array alternatives) ("array".toList ++ ('<' :: element ++ ['>']))
  | keyedArray {key : ArrayKey} {alternatives : List Member} {word element : List Char} :
    Text.trim word = key.word → AlternativesText (alternatives.map some) (Text.trim element) →
      MemberText (.keyedArray key alternatives)
        ("array".toList ++ ('<' :: (word ++ ',' :: element) ++ ['>']))
  | suffixed {m : Member} {text blanks : List Char} :
    MemberText m text → (∀ c ∈ blanks, Text.isBlank c) →
      MemberText (.suffixed m) (text ++ blanks ++ ['[', ']'])

/-- The texts of an alternative, with blanks around. -/
inductive AlternativeText : Option Member → List Char → Prop
  | null {text : List Char} : Text.trim text = "null".toList → AlternativeText none text
  | member {m : Member} {text : List Char} :
    MemberText m (Text.trim text) → AlternativeText (some m) text

/-- The texts of alternatives with bars between them. -/
inductive AlternativesText : List (Option Member) → List Char → Prop
  | one {a : Option Member} {text : List Char} : AlternativeText a text → AlternativesText [a] text
  | more {a : Option Member} {as : List (Option Member)} {text rest : List Char} :
    AlternativeText a text → AlternativesText as rest →
      AlternativesText (a :: as) (text ++ '|' :: rest)

end

/-- The derivation gives the text: without blanks around, the text is a row of alternatives,
after a question mark if there is one. -/
def Phrase.Derives (p : Phrase) (text : List Char) : Prop :=
  ∃ body, AlternativesText p.alternatives body ∧
    Text.trim text = if p.marked then '?' :: body else body

theorem Member.types_eq (ms : List Member) : Member.types ms = ms.map Member.type := by
  induction ms with
  | nil => rfl
  | cons m ms ih => rw [Member.types, ih, List.map_cons]

/-! ## Names -/

section Names

variable {m : Member} {text : List Char}

theorem isWord_of_ofKeyword? {word : String} {kind : ScalarKind}
    (h : ScalarKind.ofKeyword? word = some kind) : IsWord word.toList := by
  unfold ScalarKind.ofKeyword? at h
  split at h
  case h_13 => cases h
  all_goals exact isWord_of_all (by decide) rfl

theorem isIdentifier_not_mem {separator : Char} (hseparator : separator = '.' ∨ separator = '\\')
    (h : isIdentifier text) : separator ∉ text := by
  have hmark : separator.isAlphanum = false ∧ separator ≠ '_' := by
    rcases hseparator with rfl | rfl <;> decide
  cases text with
  | nil => exact List.not_mem_nil
  | cons c rest =>
    simp only [isIdentifier, Bool.and_eq_true, Bool.or_eq_true, beq_iff_eq, List.all_eq_true] at h
    rw [List.mem_cons, not_or]
    constructor
    · rintro rfl
      simp_all [Char.isAlphanum]
    · intro hm
      simpa [hmark] using h.2 separator hm

theorem pieces_joined_identifiers {separator : Char}
    (hseparator : separator = '.' ∨ separator = '\\') {identifiers : List (List Char)}
    (hne : identifiers ≠ []) (h : ∀ i ∈ identifiers, isIdentifier i) :
    Text.pieces (· == separator) (Text.joined separator identifiers) = identifiers :=
  Text.pieces_joined hne fun i hi => isIdentifier_not_mem hseparator (h i hi)

/-- One or more identifiers that each follow a backslash are a backslash and identifiers with
backslashes between them. -/
theorem flatMap_backslash {identifiers : List (List Char)} (hne : identifiers ≠ []) :
    (identifiers.flatMap fun i => '\\' :: i) = '\\' :: Text.joined '\\' identifiers := by
  induction identifiers with
  | nil => exact absurd rfl hne
  | cons i is ih =>
    cases is with
    | nil => simp [Text.joined]
    | cons j js =>
      rw [List.flatMap_cons, ih (List.cons_ne_nil _ _)]
      rfl

theorem isDefinitionName_iff :
    isDefinitionName text ↔ ∃ identifiers, NameText (.definition identifiers) text := by
  constructor
  · intro h
    obtain ⟨hall, hlast⟩ := Bool.and_eq_true_iff.mp h
    obtain ⟨c, hc, hupper⟩ := (Option.any_eq_true _ _).mp hlast
    obtain ⟨last, hlast, hhead⟩ := Option.bind_eq_some_iff.mp hc
    obtain ⟨rest, rfl⟩ := List.head?_eq_some_iff.mp hhead
    have hname := NameText.definition (List.all_eq_true.mp hall) hlast hupper
    rw [Text.joined_pieces] at hname
    exact ⟨_, hname⟩
  · rintro ⟨identifiers, h⟩
    cases h with
    | @definition _ c rest hall hlast hupper =>
      have hne : identifiers ≠ [] := List.ne_nil_of_mem (List.mem_of_getLast? hlast)
      rw [isDefinitionName, pieces_joined_identifiers (Or.inl rfl) hne hall, hlast,
        List.all_eq_true.mpr hall, Bool.true_and]
      exact hupper

theorem externalPath?_eq_some_iff {path : List Char} :
    externalPath? text = some path ↔
      ∃ identifiers, NameText (.external identifiers) text ∧ path = Text.joined '\\' identifiers := by
  constructor
  · intro h
    unfold externalPath? at h
    split at h
    · split_ifs at h with hall
      cases h
      have hne := Text.pieces_ne_nil (· == '\\') path
      have hname := NameText.external hne (List.all_eq_true.mp hall)
      rw [flatMap_backslash hne, Text.joined_pieces] at hname
      exact ⟨_, hname, (Text.joined_pieces '\\' path).symm⟩
    · cases h
  · rintro ⟨identifiers, h, rfl⟩
    cases h with
    | external hne hall =>
      rw [flatMap_backslash hne, externalPath?, pieces_joined_identifiers (Or.inr rfl) hne hall,
        if_pos (List.all_eq_true.mpr hall)]

/-- Names are read as what they are derived from. -/
theorem readName?_eq_some_iff {t : TypeExpr} :
    readName? text = some t ↔ ∃ m, NameText m text ∧ m.type = t := by
  constructor
  · intro h
    unfold readName? at h
    split at h
    · next kind hkind =>
      cases h
      have hname := NameText.scalar hkind
      rw [String.toList_ofList] at hname
      exact ⟨_, hname, rfl⟩
    · split at h
      · obtain ⟨path, hpath, rfl⟩ := Option.map_eq_some_iff.mp h
        obtain ⟨identifiers, hname, rfl⟩ := externalPath?_eq_some_iff.mp hpath
        exact ⟨_, hname, rfl⟩
      · split_ifs at h with hname
        cases h
        obtain ⟨identifiers, hname⟩ := isDefinitionName_iff.mp hname
        refine ⟨_, hname, ?_⟩
        cases hname
        rfl
  · rintro ⟨m, h, rfl⟩
    cases h with
    | @scalar kind word hkind =>
      unfold readName?
      rw [String.ofList_toList, hkind]
      rfl
    | @definition identifiers c rest hall hlast hupper =>
      have hname : isDefinitionName (String.ofList (Text.joined '.' identifiers)).toList := by
        rw [String.toList_ofList]
        exact isDefinitionName_iff.mpr ⟨_, .definition hall hlast hupper⟩
      have hread := readName?_definition hname
      rwa [String.toList_ofList] at hread
    | @external identifiers hne hall =>
      have hpath : (Text.pieces (· == '\\')
          (String.ofList (Text.joined '\\' identifiers)).toList).all isIdentifier := by
        rw [String.toList_ofList, pieces_joined_identifiers (Or.inr rfl) hne hall]
        exact List.all_eq_true.mpr hall
      have hread := readName?_external hpath
      rwa [String.toList_ofList, ← flatMap_backslash hne] at hread

theorem eq_of_joined_identifiers {separator : Char} (hseparator : separator = '.' ∨ separator = '\\')
    {identifiers others : List (List Char)} (hne : identifiers ≠ []) (hne' : others ≠ [])
    (h : ∀ i ∈ identifiers, isIdentifier i) (h' : ∀ i ∈ others, isIdentifier i)
    (hsame : String.ofList (Text.joined separator identifiers) =
      String.ofList (Text.joined separator others)) :
    identifiers = others := by
  rw [← pieces_joined_identifiers hseparator hne h, ← pieces_joined_identifiers hseparator hne' h',
    String.ofList_injective hsame]

theorem NameText.eq_of_type {m' : Member} {text' : List Char} (h : NameText m text)
    (h' : NameText m' text') (htype : m.type = m'.type) : m = m' := by
  cases h with
  | scalar =>
    cases h' <;> cases htype
    rfl
  | definition hall hlast =>
    cases h' with
    | definition hall' hlast' =>
      have hne := List.ne_nil_of_mem (List.mem_of_getLast? hlast)
      have hne' := List.ne_nil_of_mem (List.mem_of_getLast? hlast')
      rw [eq_of_joined_identifiers (Or.inl rfl) hne hne' hall hall' (TypeExpr.definition.inj htype)]
    | _ => cases htype
  | external hne hall =>
    cases h' with
    | external hne' hall' =>
      rw [eq_of_joined_identifiers (Or.inr rfl) hne hne' hall hall' (TypeExpr.external.inj htype)]
    | _ => cases htype

theorem NameText.unique {m' : Member} (h : NameText m text) (h' : NameText m' text) : m = m' := by
  have htype := readName?_eq_some_iff.mpr ⟨m, h, rfl⟩
  rw [readName?_eq_some_iff.mpr ⟨m', h', rfl⟩, Option.some.injEq] at htype
  exact h.eq_of_type h' htype.symm

theorem NameText.isWord (h : NameText m text) : IsWord text := by
  cases h with
  | scalar hkind => exact isWord_of_ofKeyword? hkind
  | definition hall hlast hupper =>
    exact isWord_of_isDefinitionName (isDefinitionName_iff.mpr ⟨_, .definition hall hlast hupper⟩)
  | @external identifiers hne hall =>
    have hpieces : (Text.pieces (· == '\\') (Text.joined '\\' identifiers)).all isIdentifier := by
      rw [pieces_joined_identifiers (Or.inr rfl) hne hall]
      exact List.all_eq_true.mpr hall
    have hpath := isWord_of_identifiers rfl hpieces
    rw [flatMap_backslash hne]
    exact ⟨List.cons_ne_nil _ _, List.forall_mem_cons.mpr ⟨rfl, hpath.forall_mem⟩⟩

end Names

/-! ## Members and alternatives -/

section Ends

variable {m : Member} {text : List Char}

theorem MemberText.starts {m : Member} {text : List Char} :
    MemberText m text → Text.Starts (isWordCharacter · = true) text
  | .name h => h.isWord.starts
  | .bareArray => isWord_array.starts
  | .array _ => isWord_array.starts.append _
  | .keyedArray _ _ => isWord_array.starts.append _
  | .suffixed h _ => (h.starts.append _).append _

theorem MemberText.ends :
    MemberText m text → Text.Ends (fun c => isWordCharacter c = true ∨ c = '>' ∨ c = ']') text
  | .name h => h.isWord.ends.imp fun _ => Or.inl
  | .bareArray => isWord_array.ends.imp fun _ => Or.inl
  | .array _ => ⟨_, '>', (List.append_assoc _ _ _).symm, Or.inr (Or.inl rfl)⟩
  | .keyedArray _ _ => ⟨_, '>', (List.append_assoc _ _ _).symm, Or.inr (Or.inl rfl)⟩
  | .suffixed _ _ => ⟨_, ']', (List.append_assoc _ ['['] [']']).symm, Or.inr (Or.inr rfl)⟩

theorem MemberText.trim (h : MemberText m text) : Text.trim text = text :=
  trim_of_word_ends h.starts h.ends

theorem MemberText.ne_nil (h : MemberText m text) : text ≠ [] := by
  obtain ⟨c, rest, htext, -⟩ := h.starts
  rw [htext]
  exact List.cons_ne_nil c rest

end Ends

section Cuts

theorem ArrayKey.isWord (key : ArrayKey) : IsWord key.word := by
  cases key with
  | int => exact isWord_int
  | string => exact isWord_string

theorem isWord_null : IsWord "null".toList := isWord_of_all (by decide) rfl

variable {separator : Char}

/-- Inside brackets bars and commas cut nothing. -/
theorem passes_mark {depth : Int} {mark : Char} (hmark : mark = '|' ∨ mark = ',')
    (h : mark = separator → depth ≠ 0) : Passes separator depth [mark] := by
  refine Passes.of_forall fun c hc => ?_
  obtain rfl := List.mem_singleton.mp hc
  refine ⟨?_, ?_, h⟩
  · rcases hmark with rfl | rfl <;> decide
  · rcases hmark with rfl | rfl <;> decide

section Blanks

variable (hseparator : separator = '|' ∨ separator = ',')
include hseparator

theorem passes_of_blank {depth : Int} {blanks : List Char} (h : ∀ c ∈ blanks, Text.isBlank c) :
    Passes separator depth blanks := by
  refine Passes.of_forall fun c hc => ?_
  have hblank := h c hc
  refine ⟨?_, ?_, ?_⟩
  · rintro rfl
    cases hblank
  · rintro rfl
    cases hblank
  · rintro rfl
    rcases hseparator with rfl | rfl <;> cases hblank

/-- Blanks around a text are never cut. -/
theorem passes_of_trim {depth : Int} {text : List Char} (h : Passes separator depth (Text.trim text)) :
    Passes separator depth text := by
  obtain ⟨before, after, hbefore, hafter, htext⟩ := Text.exists_trim text
  rw [htext]
  exact ((passes_of_blank hseparator hbefore).append h).append (passes_of_blank hseparator hafter)

end Blanks

mutual

/-- A member is cut nowhere. -/
theorem MemberText.passes {m : Member} {text : List Char} {depth : Int}
    (hseparator : separator = '|' ∨ separator = ',') (hdepth : 0 ≤ depth) :
    MemberText m text → Passes separator depth text
  | .name h => h.isWord.passes (isWordCharacter_separator hseparator)
  | .bareArray => isWord_array.passes (isWordCharacter_separator hseparator)
  | .array h =>
    passes_brackets hseparator
      (passes_of_trim hseparator (h.passes hseparator (by omega) fun _ => by omega))
  | @MemberText.keyedArray key _ _ element hword h => by
    have hkey : Passes separator (depth + 1) key.word :=
      key.isWord.passes (isWordCharacter_separator hseparator)
    rw [← hword] at hkey
    have hcomma : Passes separator (depth + 1) [','] := passes_mark (Or.inr rfl) fun _ => by omega
    have helement : Passes separator (depth + 1) element :=
      passes_of_trim hseparator (h.passes hseparator (by omega) fun _ => by omega)
    exact passes_brackets hseparator
      ((passes_of_trim hseparator hkey).append (hcomma.append helement))
  | .suffixed h hblanks =>
    ((h.passes hseparator hdepth).append (passes_of_blank hseparator hblanks)).append
      (passes_suffix hseparator)

theorem AlternativeText.passes {a : Option Member} {text : List Char} {depth : Int}
    (hseparator : separator = '|' ∨ separator = ',') (hdepth : 0 ≤ depth) :
    AlternativeText a text → Passes separator depth text
  | .null h => by
    have hnull : Passes separator depth "null".toList :=
      isWord_null.passes (isWordCharacter_separator hseparator)
    rw [← h] at hnull
    exact passes_of_trim hseparator hnull
  | .member h => passes_of_trim hseparator (h.passes hseparator hdepth)

/-- Alternatives are cut at their bars only. -/
theorem AlternativesText.passes {as : List (Option Member)} {text : List Char} {depth : Int}
    (hseparator : separator = '|' ∨ separator = ',') (hdepth : 0 ≤ depth)
    (hbar : separator = '|' → depth ≠ 0) :
    AlternativesText as text → Passes separator depth text
  | .one h => h.passes hseparator hdepth
  | .more h hrest =>
    have hmark : Passes separator depth ['|'] := passes_mark (Or.inl rfl) fun hsame => hbar hsame.symm
    (h.passes hseparator hdepth).append (hmark.append (hrest.passes hseparator hdepth hbar))

end

end Cuts

section Pieces

variable {as : List (Option Member)} {text : List Char}

theorem AlternativesText.forall₂_pieces {as : List (Option Member)} {text : List Char} :
    AlternativesText as text → List.Forall₂ AlternativeText as (topLevelPieces '|' 0 text)
  | .one h => by
    rw [topLevelPieces_of_passes (h.passes (Or.inl rfl) le_rfl)]
    exact .cons h .nil
  | .more h hrest => by
    rw [topLevelPieces_cut (h.passes (Or.inl rfl) le_rfl)]
    exact .cons h hrest.forall₂_pieces

theorem alternativesText_joined {pieces : List (List Char)} (hne : pieces ≠ [])
    (h : List.Forall₂ AlternativeText as pieces) : AlternativesText as (Text.joined '|' pieces) := by
  induction h with
  | nil => exact absurd rfl hne
  | @cons a piece as pieces ha hrest ih =>
    cases hrest with
    | nil => exact .one ha
    | cons => exact .more ha (ih (List.cons_ne_nil _ _))

/-- Alternatives are what the pieces outside brackets are derived from. -/
theorem alternativesText_iff :
    AlternativesText as text ↔ List.Forall₂ AlternativeText as (topLevelPieces '|' 0 text) := by
  refine ⟨AlternativesText.forall₂_pieces, fun h => ?_⟩
  have hjoined := alternativesText_joined (topLevelPieces_ne_nil '|' 0 text) h
  rwa [joined_topLevelPieces] at hjoined

end Pieces

end RecordDefinitions.TypeExpr
