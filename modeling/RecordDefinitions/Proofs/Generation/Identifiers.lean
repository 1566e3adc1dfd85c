import RecordDefinitions.Generation.Structs
import RecordDefinitions.Proofs.Naming.Tokens
import RecordDefinitions.Proofs.Naming.Unique

/-!
# Identifiers of members

Every field name, whatever characters it is made of, gives an identifier in snake case that is no
word of the language. In a struct the identifiers are told apart by numbers, and a number behind an
identifier makes no other kind of word of it.
-/

namespace RecordDefinitions.Structs

open Generation

/-! ## Identifiers -/

/-- Lower-case letters, digits and underscores, of which the first is a letter. -/
def IsSnakeWord (word : List Char) : Prop :=
  Text.Starts (fun c => c.isLower) word ∧ ∀ c ∈ word, Naming.isSnake c

/-- A word in snake case that is no word of the language. -/
def IsIdentifier (word : String) : Prop := IsSnakeWord word.toList ∧ word ∉ reservedWords

theorem IsSnakeWord.append {word more : List Char} (h : IsSnakeWord word)
    (hmore : ∀ c ∈ more, Naming.isSnake c) : IsSnakeWord (word ++ more) := by
  refine ⟨h.1.append more, fun c hc => ?_⟩
  rcases List.mem_append.mp hc with hc | hc
  · exact h.2 c hc
  · exact hmore c hc

/-- The words of the language end with letters. -/
theorem not_mem_reservedWords {word : String}
    (h : Text.Ends (fun c => c = '_' ∨ c.isDigit) word.toList) : word ∉ reservedWords := by
  have hletters : ∀ word ∈ reservedWords,
      word.toList.getLast?.all (fun c => !(c == '_' || c.isDigit)) := by decide
  intro hmem
  obtain ⟨start, c, hword, hc⟩ := h
  have hletter := hletters word hmem
  rw [hword, List.getLast?_concat] at hletter
  rcases hc with rfl | hc
  · cases hletter
  · simp [hc] at hletter

theorem isIdentifier_append {word more : String} (h : IsSnakeWord word.toList)
    (hmore : more.toList ≠ []) (hall : ∀ c ∈ more.toList, c = '_' ∨ c.isDigit) :
    IsIdentifier (word ++ more) := by
  have hsnake : ∀ c ∈ more.toList, Naming.isSnake c := fun c hc => by
    rcases hall c hc with rfl | hdigit
    · rfl
    · rw [Naming.isSnake, hdigit, Bool.or_true, Bool.true_or]
  refine ⟨?_, not_mem_reservedWords ?_⟩
  · rw [String.toList_append]
    exact h.append hsnake
  · rw [String.toList_append]
    exact (Text.ends_of_forall hmore hall).append _

/-- `field_` in front is enough for a word that starts with a digit. -/
theorem isSnakeWord_guarded {word : String}
    (hstarts : Text.Starts (fun c => c.isLower ∨ c.isDigit) word.toList)
    (hall : ∀ c ∈ word.toList, Naming.isSnake c) :
    IsSnakeWord
      (if word.toList.head?.any Char.isDigit then "field_" ++ word else word).toList := by
  obtain ⟨c, rest, hword, hc⟩ := hstarts
  rw [hword, List.head?_cons, Option.any_some]
  by_cases hdigit : c.isDigit
  · have hfield : IsSnakeWord "field_".toList :=
      ⟨⟨'f', _, rfl, rfl⟩, List.all_eq_true.mp rfl⟩
    rw [if_pos hdigit, String.toList_append]
    exact hfield.append hall
  · rw [if_neg hdigit]
    exact ⟨⟨c, rest, hword, hc.resolve_right hdigit⟩, hall⟩

/-- A name without letters and digits gives way to `field`. -/
theorem isSnake_or_field (name : String) :
    ∃ base, base = (if (Naming.snake name).isEmpty then "field" else Naming.snake name) ∧
      Text.Starts (fun c => c.isLower ∨ c.isDigit) base.toList ∧
      Text.Ends (fun c => c.isLower ∨ c.isDigit) base.toList ∧
      ∀ c ∈ base.toList, Naming.isSnake c := by
  refine ⟨_, rfl, ?_⟩
  by_cases hempty : (Naming.snake name).isEmpty
  · rw [if_pos hempty]
    exact ⟨⟨'f', _, rfl, Or.inl rfl⟩, ⟨"fiel".toList, 'd', rfl, Or.inl rfl⟩, List.all_eq_true.mp rfl⟩
  · have hchars : (Naming.snake name).toList = Naming.snakeChars name.toList :=
      String.toList_ofList
    have hne : Naming.snakeChars name.toList ≠ [] := by
      intro hnil
      refine hempty ?_
      rw [Naming.snake, hnil]
      rfl
    rw [if_neg hempty, hchars]
    exact ⟨Naming.starts_snakeChars hne, Naming.ends_snakeChars hne,
      fun c hc => Naming.isSnake_of_mem_snakeChars hc⟩

/-- Every identifier is a word in snake case, with an underscore behind the words of the language. -/
theorem exists_identifierFor_eq (name : String) : ∃ word : String,
    IsSnakeWord word.toList ∧ Text.Ends (fun c => c.isLower ∨ c.isDigit) word.toList ∧
      identifierFor name = if word ∈ reservedWords then word ++ "_" else word := by
  obtain ⟨base, hbase, hstarts, hends, hall⟩ := isSnake_or_field name
  refine ⟨if base.toList.head?.any Char.isDigit then "field_" ++ base else base,
    isSnakeWord_guarded hstarts hall, ?_, ?_⟩
  · split
    · rw [String.toList_append]
      exact hends.append _
    · exact hends
  · rw [identifierFor]
    simp only [← hbase, List.contains_iff_mem]

theorem isIdentifier_identifierFor (name : String) : IsIdentifier (identifierFor name) := by
  obtain ⟨word, hword, -, hname⟩ := exists_identifierFor_eq name
  rw [hname]
  split
  · exact isIdentifier_append hword (List.cons_ne_nil '_' []) (by simp)
  next hfree => exact ⟨hword, hfree⟩

theorem IsIdentifier.numbered {base : String} (h : IsIdentifier base) (n : Nat) :
    IsIdentifier (Naming.numbered base n) := by
  have hdigits : (Decimal.text n).toList = Decimal.digits n := String.toList_ofList
  refine isIdentifier_append h.1 ?_ ?_
  · rw [hdigits]
    exact Decimal.digits_ne_nil n
  · rw [hdigits]
    exact fun c hc => Or.inr (Decimal.isDigit_of_mem_digits hc)

theorem IsIdentifier.uniqueName {base : String} (h : IsIdentifier base) (used : List String) :
    IsIdentifier (Naming.uniqueName used base) := by
  rcases Naming.uniqueName_eq_or used base with hbase | ⟨n, hnumbered⟩
  · rwa [hbase]
  · rw [hnumbered]
    exact h.numbered n

/-! ## Members -/

namespace Member

theorem map_view_ofFields (names : TypeNames) (used : List String) (fs : List FieldView) :
    (ofFields names used fs).map (·.view) = fs := by
  induction fs generalizing used with
  | nil => rfl
  | cons f fs ih => rw [ofFields, List.map_cons, ih]

theorem map_type_ofFields (names : TypeNames) (used : List String) (fs : List FieldView) :
    (ofFields names used fs).map (·.type) = fs.map fun f => .ofType names f.type := by
  induction fs generalizing used with
  | nil => rfl
  | cons f fs ih => rw [ofFields, List.map_cons, List.map_cons, ih]

/-- All but the identifier of a member comes from its field. -/
theorem exists_of_mem_ofFields {names : TypeNames} {used : List String} {fs : List FieldView}
    {m : Member} (h : m ∈ ofFields names used fs) : ∃ f ∈ fs, ∃ identifier,
      m = ⟨identifier, f, .ofType names f.type, f.nullable || !f.required⟩ := by
  induction fs generalizing used with
  | nil => cases h
  | cons f fs ih =>
    rw [ofFields] at h
    rcases List.mem_cons.mp h with rfl | h
    · exact ⟨f, List.mem_cons_self, _, rfl⟩
    · obtain ⟨g, hg, hm⟩ := ih h
      exact ⟨g, List.mem_cons_of_mem f hg, hm⟩

theorem map_identifier_ofFields (names : TypeNames) (used : List String) (fs : List FieldView) :
    (ofFields names used fs).map (·.identifier) =
      Naming.uniqueNames used (fs.map fun f => identifierFor f.name) := by
  induction fs generalizing used with
  | nil => rfl
  | cons f fs ih => rw [ofFields, List.map_cons, List.map_cons, Naming.uniqueNames, ih]

theorem identifiers_fresh (names : TypeNames) (used : List String) (fs : List FieldView) :
    ((ofFields names used fs).map (·.identifier)).Nodup ∧
      ∀ m ∈ ofFields names used fs, m.identifier ∉ used := by
  rw [← List.forall_mem_map (P := (· ∉ used)), map_identifier_ofFields]
  exact Naming.uniqueNames_fresh used _

/-- An identifier is made for a field name, and then told apart from others. -/
theorem exists_identifier_eq {names : TypeNames} {used : List String} {fs : List FieldView}
    {m : Member} (h : m ∈ ofFields names used fs) :
    ∃ name taken, m.identifier = Naming.uniqueName taken (identifierFor name) := by
  have hmem : m.identifier ∈ (ofFields names used fs).map (·.identifier) := List.mem_map_of_mem h
  rw [map_identifier_ofFields] at hmem
  obtain ⟨base, hbase, taken, hname⟩ := Naming.exists_of_mem_uniqueNames hmem
  obtain ⟨f, -, rfl⟩ := List.mem_map.mp hbase
  exact ⟨f.name, taken, hname⟩

theorem isIdentifier_of_mem_ofFields {names : TypeNames} {used : List String}
    {fs : List FieldView} {m : Member} (h : m ∈ ofFields names used fs) :
    IsIdentifier m.identifier := by
  obtain ⟨name, taken, hname⟩ := exists_identifier_eq h
  rw [hname]
  exact (isIdentifier_identifierFor name).uniqueName taken

end Member

end RecordDefinitions.Structs
