import RecordDefinitions.Proofs.Distinct
import RecordDefinitions.Proofs.Outcome
import RecordDefinitions.Proofs.TypeExpr.Cuts

/-!
# Reading what was written

The text of a type is read as that type, whatever is nested in what. Every cut that the
reader makes falls where the writer put two texts together, because all other bars and
commas stand in brackets.
-/

namespace RecordDefinitions.TypeExpr

/-- Types whose names are names and whose unions hold several types that differ and are no
unions themselves. -/
inductive Readable : TypeExpr → Prop
  | scalar (kind : ScalarKind) : Readable (scalar kind)
  | definition {name : String} (hname : isDefinitionName name.toList) : Readable (definition name)
  | external {path : String}
    (hpath : (Text.pieces (· == '\\') path.toList).all isIdentifier) : Readable (external path)
  | list {element : TypeExpr} (helement : Readable element) : Readable (list element)
  | map {element : TypeExpr} (helement : Readable element) : Readable (map element)
  | union {members : List TypeExpr} (hmembers : ∀ member ∈ members, Readable member)
    (hsingle : ∀ member ∈ members, member.isUnion = false) (hnodup : members.Nodup)
    (hseveral : 2 ≤ members.length) : Readable (union members)

/-- A list or a map written with the type of its keys. -/
def arrayText (key : List Char) (element : TypeExpr) : List Char :=
  "array".toList ++ ('<' :: (key ++ ", ".toList ++ element.text.toList) ++ ['>'])

section Texts

variable {element : TypeExpr}

theorem toList_text_list_of_single (h : element.isUnion = false) :
    (list element).text.toList = element.text.toList ++ ['[', ']'] := by
  rw [text, h, if_neg Bool.false_ne_true, String.toList_append]
  rfl

theorem toList_text_list_of_union (h : element.isUnion = true) :
    (list element).text.toList = arrayText "int".toList element := by
  rw [text, if_pos h, String.toList_append, String.toList_append]
  simp [arrayText]

theorem toList_text_map (h : element ≠ scalar .mixed) :
    (map element).text.toList = arrayText "string".toList element := by
  rw [text, if_neg h, String.toList_append, String.toList_append]
  simp [arrayText]

theorem memberTexts_eq (members : List TypeExpr) : memberTexts members = members.map text := by
  induction members with
  | nil => rfl
  | cons t members ih => rw [memberTexts, ih, List.map_cons]

theorem toList_text_union (members : List TypeExpr) :
    (union members).text.toList =
      ['|'].intercalate (members.map fun member => member.text.toList) := by
  rw [text, memberTexts_eq, String.toList_intercalate, List.map_map]
  rfl

end Texts

/-- A type that is written and read as a single word. -/
structure Plain (t : TypeExpr) : Prop where
  single : t.isUnion = false
  isWord : IsWord t.text.toList
  readName? : readName? t.text.toList = some t

theorem plain_scalar (kind : ScalarKind) : Plain (scalar kind) where
  single := rfl
  isWord := by cases kind <;> exact isWord_of_all (by decide) rfl
  readName? := readName?_keyword kind

theorem plain_definition {name : String} (h : isDefinitionName name.toList) :
    Plain (definition name) where
  single := rfl
  isWord := isWord_of_isDefinitionName h
  readName? := readName?_definition h

theorem plain_external {path : String}
    (h : (Text.pieces (· == '\\') path.toList).all isIdentifier) : Plain (external path) := by
  have htext : (external path).text.toList = '\\' :: path.toList := String.toList_append
  have hpath : IsWord path.toList := isWord_of_identifiers rfl h
  refine ⟨rfl, ?_, ?_⟩
  · rw [htext]
    exact ⟨List.cons_ne_nil _ _, List.forall_mem_cons.mpr ⟨rfl, hpath.forall_mem⟩⟩
  · rw [htext]
    exact readName?_external h

/-- The types that are written with the type of their keys. -/
inductive KeyedBy : List Char → TypeExpr → TypeExpr → Prop
  | int {element : TypeExpr} : element.isUnion = true →
    KeyedBy "int".toList element (list element)
  | string {element : TypeExpr} : element ≠ scalar .mixed →
    KeyedBy "string".toList element (map element)

namespace KeyedBy

variable {key : List Char} {element t : TypeExpr}

theorem single (h : KeyedBy key element t) : t.isUnion = false := by
  cases h <;> rfl

theorem isWord (h : KeyedBy key element t) : IsWord key := by
  cases h with
  | int => exact isWord_int
  | string => exact isWord_string

theorem toList_text (h : KeyedBy key element t) : t.text.toList = arrayText key element := by
  cases h with
  | int hunion => exact toList_text_list_of_union hunion
  | string hmixed => exact toList_text_map hmixed

end KeyedBy

/-- Induction along the ways in which types are written. -/
@[elab_as_elim]
theorem Readable.induction_written {motive : (t : TypeExpr) → Readable t → Prop}
    (plain : ∀ t (ht : Readable t), Plain t → motive t ht)
    (bare : ∀ ht, motive (.map (.scalar .mixed)) ht)
    (suffixed : ∀ element (helement : Readable element), element.isUnion = false →
      motive element helement → motive (.list element) (.list helement))
    (keyed : ∀ key element t (helement : Readable element) (ht : Readable t),
      KeyedBy key element t → motive element helement → motive t ht)
    (union : ∀ members (hmembers : ∀ member ∈ members, Readable member) (ht : Readable _),
      members ≠ [] → (∀ member ∈ members, member.isUnion = false) →
      (∀ member (hmember : member ∈ members), motive member (hmembers member hmember)) →
      motive (.union members) ht)
    {t : TypeExpr} (ht : Readable t) : motive t ht := by
  induction ht with
  | scalar kind => exact plain _ _ (plain_scalar kind)
  | definition hname => exact plain _ _ (plain_definition hname)
  | external hpath => exact plain _ _ (plain_external hpath)
  | @list element helement ih =>
    cases hunion : element.isUnion with
    | true => exact keyed _ element _ helement _ (.int hunion) ih
    | false => exact suffixed element helement hunion ih
  | @map element helement ih =>
    by_cases hmixed : element = TypeExpr.scalar .mixed
    · subst hmixed
      exact bare _
    · exact keyed _ element _ helement _ (.string hmixed) ih
  | @union members hmembers hsingle _ hseveral ih =>
    refine union members hmembers _ ?_ hsingle ih
    rintro rfl
    cases hseveral

variable {t element : TypeExpr}

section Ends

/-- Every text starts with a keyword, a definition name or an external path. -/
theorem Readable.starts (ht : Readable t) :
    Text.Starts (isWordCharacter · = true) t.text.toList := by
  induction ht using Readable.induction_written with
  | plain t _ h => exact h.isWord.starts
  | bare => exact ⟨'a', _, rfl, rfl⟩
  | suffixed element _ hsingle ih =>
    rw [toList_text_list_of_single hsingle]
    exact ih.append _
  | keyed key element t _ _ h =>
    rw [h.toList_text]
    exact ⟨'a', _, rfl, rfl⟩
  | union members _ _ hne _ ih =>
    rw [toList_text_union]
    exact Text.Starts.intercalate (by simpa using hne) (List.forall_mem_map.mpr ih)

/-- Every text ends with such a name or a bracket. -/
theorem Readable.ends (ht : Readable t) :
    Text.Ends (fun c => isWordCharacter c = true ∨ c = '>' ∨ c = ']') t.text.toList := by
  induction ht using Readable.induction_written with
  | plain t _ h => exact h.isWord.ends.imp fun c hc => Or.inl hc
  | bare => exact ⟨"arra".toList, 'y', rfl, Or.inl rfl⟩
  | suffixed element _ hsingle ih =>
    rw [toList_text_list_of_single hsingle]
    exact ⟨_, ']', (List.append_assoc _ ['['] [']']).symm, Or.inr (Or.inr rfl)⟩
  | keyed key element t _ _ h =>
    rw [h.toList_text]
    exact ⟨_, '>', (List.append_assoc _ _ _).symm, Or.inr (Or.inl rfl)⟩
  | union members _ _ hne _ ih =>
    rw [toList_text_union]
    exact Text.Ends.intercalate (by simpa using hne) (List.forall_mem_map.mpr ih)

theorem trim_of_word_ends {text : List Char} (hstart : Text.Starts (isWordCharacter · = true) text)
    (hend : Text.Ends (fun c => isWordCharacter c = true ∨ c = '>' ∨ c = ']') text) :
    Text.trim text = text := by
  refine Text.trim_eq_self (hstart.imp fun c => isBlank_of_isWordCharacter) (hend.imp ?_)
  rintro c (hc | rfl | rfl)
  · exact isBlank_of_isWordCharacter hc
  · rfl
  · rfl

theorem Readable.trim_text (ht : Readable t) : Text.trim t.text.toList = t.text.toList :=
  trim_of_word_ends ht.starts ht.ends

end Ends

section Cuts

variable {separator : Char} {depth : Int}

theorem IsWord.passes {text : List Char} (h : IsWord text)
    (hseparator : isWordCharacter separator = false) : Passes separator depth text :=
  Passes.of_forall fun _ hc =>
    ⟨h.ne_of_mem hc rfl, h.ne_of_mem hc rfl, fun hsame => absurd hsame (h.ne_of_mem hc hseparator)⟩

variable (hseparator : separator = '|' ∨ separator = ',')
include hseparator

theorem isWordCharacter_separator : isWordCharacter separator = false := by
  rcases hseparator with rfl | rfl <;> rfl

theorem passes_suffix : Passes separator depth ['[', ']'] := by
  have hmarks : ∀ c ∈ ['[', ']'], c ≠ '<' ∧ c ≠ '>' ∧ c ≠ '|' ∧ c ≠ ',' := by simp
  refine Passes.of_forall ?_
  intro c hc
  obtain ⟨hopen, hclose, hbar, hcomma⟩ := hmarks c hc
  refine ⟨hopen, hclose, fun hsame => ?_⟩
  rcases hseparator with rfl | rfl
  · exact absurd hsame hbar
  · exact absurd hsame hcomma

theorem passes_brackets {text : List Char} (h : Passes separator (depth + 1) text) :
    Passes separator depth ("array".toList ++ ('<' :: text ++ ['>'])) := by
  have hmark := isWordCharacter_separator hseparator
  refine (isWord_array.passes hmark).append (Passes.bracketed ?_ ?_ h)
  · rcases hseparator with rfl | rfl <;> decide
  · rcases hseparator with rfl | rfl <;> decide

variable (hdepth : 0 ≤ depth)
include hdepth

theorem passes_arrayText {key : List Char} (hkey : IsWord key)
    (helement : Passes separator (depth + 1) element.text.toList) :
    Passes separator depth (arrayText key element) := by
  have hmark := isWordCharacter_separator hseparator
  have hglue : Passes separator (depth + 1) ", ".toList := by
    have hmarks : ∀ c ∈ ", ".toList, c ≠ '<' ∧ c ≠ '>' := by simp
    exact Passes.of_forall fun c hc => ⟨(hmarks c hc).1, (hmarks c hc).2, fun _ => by omega⟩
  exact passes_brackets hseparator (((hkey.passes hmark).append hglue).append helement)

/-- Only the bars of a union itself cut its text. -/
theorem Readable.passes (ht : Readable t) (hbar : separator = '|' → t.isUnion = true → depth ≠ 0) :
    Passes separator depth t.text.toList := by
  have hmark := isWordCharacter_separator hseparator
  induction ht using Readable.induction_written generalizing depth with
  | plain t _ h => exact h.isWord.passes hmark
  | bare => exact isWord_array.passes hmark
  | suffixed element _ hsingle ih =>
    rw [toList_text_list_of_single hsingle]
    have helement := ih hdepth fun _ h => absurd (hsingle.symm.trans h) Bool.false_ne_true
    exact helement.append (passes_suffix hseparator)
  | keyed key element t _ _ h ih =>
    -- One level down the depth is positive, so that the bars of an element cut nothing.
    have hdeeper : 0 ≤ depth + 1 := by omega
    rw [h.toList_text]
    exact passes_arrayText hseparator hdepth h.isWord (ih hdeeper fun _ _ => by omega)
  | union members _ _ _ hsingle ih =>
    rw [toList_text_union]
    refine Passes.intercalate ?_ (List.forall_mem_map.mpr fun member hmember => ?_)
    · refine Passes.of_forall fun c hc => ?_
      obtain rfl := List.mem_singleton.mp hc
      exact ⟨by decide, by decide, fun hsame => hbar hsame.symm rfl⟩
    · exact ih member hmember hdepth fun _ h =>
        absurd ((hsingle member hmember).symm.trans h) Bool.false_ne_true

end Cuts

section Reading

variable {fuel : Nat} {whole : List Char}

theorem readMember_plain (h : Plain t) :
    readMember (fuel + 1) whole t.text.toList = .ok t := by
  have harray : t.text.toList ≠ "array".toList := by
    intro harray
    have hname := h.readName?
    rw [harray] at hname
    cases hname
  rw [readMember_succ h.isWord.ne_nil, cut_word h.isWord harray, readCut, h.readName?]

theorem readMember_suffixed {text : List Char} (htrim : Text.trim text = text) :
    readMember (fuel + 1) whole (text ++ ['[', ']']) = (readMember fuel whole text).map list := by
  rw [readMember_succ (by simp), cut_suffix, htrim]
  rfl

theorem cut_arrayText {key : List Char} (hkey : IsWord key) (helement : Readable element) :
    cut (arrayText key element) = .brackets [key, ' ' :: element.text.toList] := by
  have hblank : Passes ',' 0 [' '] := Passes.of_forall (by simp)
  have hpasses : Passes ',' 0 element.text.toList :=
    helement.passes (Or.inr rfl) le_rfl fun hbar => absurd hbar (by decide)
  have hsplit : key ++ ", ".toList ++ element.text.toList =
      key ++ ',' :: ([' '] ++ element.text.toList) := by
    simp
  rw [arrayText, cut_brackets, hsplit, topLevelPieces_cut (hkey.passes rfl),
    topLevelPieces_of_passes (hblank.append hpasses)]
  rfl

theorem readMember_arrayText {key : List Char} (hkey : IsWord key) (helement : Readable element) :
    readMember (fuel + 1) whole (arrayText key element) =
      if key = "string".toList then
        (readElement fuel whole (' ' :: element.text.toList)).map map
      else if key = "int".toList then
        (readElement fuel whole (' ' :: element.text.toList)).map list
      else .error (.malformed (String.ofList whole)) := by
  rw [readMember_succ (by simp [arrayText]), cut_arrayText hkey helement, readCut, hkey.trim]

theorem readMember_keyed {key : List Char} (h : KeyedBy key element t) (helement : Readable element)
    (hread : readElement fuel whole (' ' :: element.text.toList) = .ok element) :
    readMember (fuel + 1) whole t.text.toList = .ok t := by
  rw [h.toList_text, readMember_arrayText h.isWord helement, hread]
  cases h with
  | int =>
    rw [if_neg (by decide), if_pos rfl]
    rfl
  | string =>
    rw [if_pos rfl]
    rfl

theorem Readable.of_mem_alternatives (ht : Readable t) {member : TypeExpr}
    (hmember : member ∈ t.alternatives) : Readable member ∧ member.isUnion = false := by
  cases hunion : t.isUnion with
  | true =>
    cases ht with
    | union hmembers hsingle => exact ⟨hmembers member hmember, hsingle member hmember⟩
    | _ => cases hunion
  | false =>
    obtain rfl := (mem_alternatives_of_single hunion).mp hmember
    exact ⟨ht, hunion⟩

theorem Readable.unionOf_alternatives (ht : Readable t) : unionOf t.alternatives = t := by
  cases hunion : t.isUnion with
  | true =>
    cases ht with
    | union _ hsingle hnodup hseveral => exact unionOf_of_nodup hseveral hnodup hsingle
    | _ => cases hunion
  | false => rw [alternatives_of_single hunion, unionOf_singleton hunion]

/-- Readable types that differ and are no unions may be joined. -/
theorem readable_unionOf {types : List TypeExpr} (h : ∀ t ∈ types, Readable t)
    (hsingle : ∀ t ∈ types, t.isUnion = false) (hnodup : types.Nodup) :
    Readable (unionOf types) := by
  rcases types with _ | ⟨t, _ | ⟨u, rest⟩⟩
  · exact .scalar .mixed
  · rw [unionOf_singleton (hsingle t List.mem_cons_self)]
    exact h t List.mem_cons_self
  · have hseveral : 2 ≤ (t :: u :: rest).length := by simp
    rw [unionOf_of_nodup hseveral hnodup hsingle]
    exact .union h hsingle hnodup hseveral

/-- The texts of the alternatives of a type. -/
def alternativeTexts (t : TypeExpr) : List (List Char) :=
  t.alternatives.map fun member => member.text.toList

/-- The text of a type is cut into the texts of its alternatives. -/
theorem Readable.pieces (ht : Readable t) :
    topLevelPieces '|' 0 t.text.toList = t.alternativeTexts := by
  have hpasses : ∀ text ∈ t.alternativeTexts, Passes '|' 0 text := by
    refine List.forall_mem_map.mpr ?_
    intro member hmember
    obtain ⟨hreadable, hsingle⟩ := ht.of_mem_alternatives hmember
    exact hreadable.passes (Or.inl rfl) le_rfl fun _ hunion =>
      absurd (hsingle.symm.trans hunion) Bool.false_ne_true
  cases hunion : t.isUnion with
  | true =>
    cases ht with
    | @union members _ _ _ hseveral =>
      have hne : (TypeExpr.union members).alternativeTexts ≠ [] := by
        intro hnil
        have hmembers : members = [] := List.map_eq_nil_iff.mp hnil
        rw [hmembers] at hseveral
        cases hseveral
      rw [toList_text_union]
      exact topLevelPieces_intercalate hne hpasses
    | _ => cases hunion
  | false =>
    rw [alternativeTexts, alternatives_of_single hunion] at hpasses ⊢
    exact topLevelPieces_of_passes (hpasses _ List.mem_cons_self)

theorem text_ne_null (h : readMember fuel whole t.text.toList = .ok t) :
    t.text.toList ≠ "null".toList := by
  intro hnull
  rw [hnull] at h
  cases fuel <;> cases h

/-- A text is read as a type when its alternatives are. -/
theorem Readable.readText_of_alternatives (ht : Readable t) {text : List Char}
    (htrim : Text.trim text = t.text.toList)
    (h : ∀ member ∈ t.alternatives, readMember fuel text member.text.toList = .ok member) :
    readText (fuel + 1) text = .ok (t, false) := by
  have hmark : unmarked t.text.toList = (t.text.toList, false) := by
    refine unmarked_of_starts (ht.starts.imp ?_)
    rintro c hc rfl
    cases hc
  have htexts : ∀ member ∈ t.alternatives,
      Text.trim member.text.toList = member.text.toList ∧ isNull member.text.toList = false := by
    intro member hmember
    have hself := (ht.of_mem_alternatives hmember).1.trim_text
    refine ⟨hself, ?_⟩
    rw [isNull, hself]
    exact beq_eq_false_iff_ne.mpr (text_ne_null (h member hmember))
  -- No alternative is `null`, so that none is left out and none makes the type nullable.
  have hfilter : t.alternativeTexts.filter (!isNull ·) = t.alternativeTexts := by
    rw [List.filter_eq_self]
    exact List.forall_mem_map.mpr fun member hmember => by
      rw [(htexts member hmember).2, Bool.not_false]
  have hany : t.alternativeTexts.any isNull = false := by
    rw [List.any_eq_false]
    exact List.forall_mem_map.mpr fun member hmember => by
      rw [(htexts member hmember).2]
      exact Bool.false_ne_true
  have hread : (t.alternativeTexts.mapM fun piece => readMember fuel text (Text.trim piece)) =
      .ok t.alternatives := by
    rw [alternativeTexts, mapM_eq_ok_iff, List.forall₂_map_left_iff, List.forall₂_same]
    intro member hmember
    rw [(htexts member hmember).1]
    exact h member hmember
  have hnonempty : t.alternatives.isEmpty = false := by
    have hne := topLevelPieces_ne_nil '|' 0 t.text.toList
    rw [ht.pieces, alternativeTexts] at hne
    simpa using hne
  have hbody : t.text.toList.isEmpty = false := by
    obtain ⟨c, rest, htext, -⟩ := ht.starts
    rw [htext]
    rfl
  rw [readText_succ, htrim, hmark]
  dsimp only
  rw [hbody, if_neg Bool.false_ne_true, ht.pieces, hfilter, hread, hany]
  dsimp only [bind, Except.bind]
  rw [hnonempty, if_neg Bool.false_ne_true, ht.unionOf_alternatives]
  rfl

theorem length_arrayText (key : List Char) (element : TypeExpr) :
    element.text.toList.length + 9 ≤ (arrayText key element).length := by
  have harray : "array".toList.length = 5 := rfl
  have hcomma : ", ".toList.length = 2 := rfl
  simp only [arrayText, List.length_append, List.length_cons, List.length_nil, harray, hcomma]
  omega

theorem length_text_of_mem_alternatives {member : TypeExpr} (h : member ∈ t.alternatives) :
    member.text.toList.length ≤ t.text.toList.length := by
  cases hunion : t.isUnion with
  | true =>
    cases t with
    | union members =>
      rw [toList_text_union]
      exact Text.length_le_intercalate (List.mem_map_of_mem h)
    | _ => cases hunion
  | false =>
    obtain rfl := (mem_alternatives_of_single hunion).mp h
    exact le_rfl

/-- Three calls lead from an array to its elements, and at least nine characters. -/
theorem Readable.readElement_of_arrayText (helement : Readable element) {key : List Char}
    (hfuel : (arrayText key element).length ≤ fuel)
    (h : ∀ member ∈ element.alternatives, ∀ fuel whole, member.text.toList.length ≤ fuel →
      readMember fuel whole member.text.toList = .ok member) :
    ∃ rest, fuel = rest + 1 ∧
      readElement rest whole (' ' :: element.text.toList) = .ok element := by
  have hlength := length_arrayText key element
  obtain ⟨rest, rfl⟩ : ∃ rest, fuel = rest + 3 := ⟨fuel - 3, by omega⟩
  have htrim : Text.trim (' ' :: element.text.toList) = element.text.toList := by
    rw [Text.trim_blank_cons rfl, helement.trim_text]
  have htext : readText (rest + 1) (' ' :: element.text.toList) = .ok (element, false) := by
    refine helement.readText_of_alternatives htrim fun member hmember => ?_
    have hmemberLength := length_text_of_mem_alternatives hmember
    exact h member hmember rest _ (by omega)
  refine ⟨rest + 2, rfl, ?_⟩
  rw [readElement, htext]
  rfl

/-- Fuel for every character suffices. -/
theorem Readable.readMember_text (ht : Readable t) {member : TypeExpr}
    (hmember : member ∈ t.alternatives) (hfuel : member.text.toList.length ≤ fuel) :
    readMember fuel whole member.text.toList = .ok member := by
  induction ht using Readable.induction_written generalizing member fuel whole with
  | plain t _ h =>
    obtain rfl := (mem_alternatives_of_single h.single).mp hmember
    have hlength := List.length_pos_iff.mpr h.isWord.ne_nil
    obtain ⟨rest, rfl⟩ := Nat.exists_eq_add_one.mpr (Nat.lt_of_lt_of_le hlength hfuel)
    exact readMember_plain h
  | bare =>
    obtain rfl := List.mem_singleton.mp hmember
    have hpositive : 0 < fuel := Nat.lt_of_lt_of_le (by decide) hfuel
    obtain ⟨rest, rfl⟩ := Nat.exists_eq_add_one.mpr hpositive
    rfl
  | suffixed element helement hsingle ih =>
    obtain rfl := List.mem_singleton.mp hmember
    rw [toList_text_list_of_single hsingle] at hfuel ⊢
    rw [List.length_append, List.length_cons] at hfuel
    obtain ⟨rest, rfl⟩ : ∃ rest, fuel = rest + 1 := ⟨fuel - 1, by omega⟩
    have hself := (mem_alternatives_of_single hsingle).mpr rfl
    rw [readMember_suffixed helement.trim_text, ih hself (by omega)]
    rfl
  | keyed key element t helement _ h ih =>
    obtain rfl := (mem_alternatives_of_single h.single).mp hmember
    rw [h.toList_text] at hfuel
    obtain ⟨rest, rfl, hread⟩ := helement.readElement_of_arrayText hfuel
      fun member hmember fuel whole => ih hmember
    exact readMember_keyed h helement hread
  | union members _ _ _ hsingle ih =>
    exact ih member hmember ((mem_alternatives_of_single (hsingle member hmember)).mpr rfl) hfuel

end Reading

theorem Readable.readNullable_text (ht : Readable t) : readNullable t.text = .ok (t, false) := by
  refine ht.readText_of_alternatives ht.trim_text fun member hmember => ?_
  have hlength := length_text_of_mem_alternatives hmember
  exact ht.readMember_text hmember (by omega)

/-- What is written for a type is read as that type. -/
theorem Readable.read_text (ht : Readable t) : read t.text = .ok t := by
  rw [read, ht.readNullable_text]
  rfl

end RecordDefinitions.TypeExpr
