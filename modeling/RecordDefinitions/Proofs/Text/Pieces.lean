import RecordDefinitions.Text.Pieces

/-!
# Pieces of a text

Cutting at a separator cuts both sides on their own, and loses nothing but separators. Texts that
are put together hold their own characters and those of the glue.
-/

namespace RecordDefinitions.Text

variable {separates : Char → Bool}

theorem pieces_separator_append {separator : Char} (hseparator : separates separator)
    (text rest : List Char) :
    pieces separates (text ++ separator :: rest) =
      pieces separates text ++ pieces separates rest := by
  induction text with
  | nil => simp [pieces, hseparator]
  | cons c text ih =>
    rw [List.cons_append, pieces, pieces, ih]
    by_cases hc : separates c
    · rw [if_pos hc, if_pos hc]
      rfl
    · rw [if_neg hc, if_neg hc]
      cases h : pieces separates text with
      | nil => exact absurd h (pieces_ne_nil _ _)
      | cons p ps => rfl

/-- The last piece before a place that is no separator goes on behind it. -/
theorem pieces_append {text more p q : List Char} {init rest : List (List Char)}
    (htext : pieces separates text = init ++ [p]) (hmore : pieces separates more = q :: rest) :
    pieces separates (text ++ more) = init ++ (p ++ q) :: rest := by
  induction text generalizing init p with
  | nil =>
    have hsingle : ([] : List (List Char)) ++ [[]] = init ++ [p] := htext
    obtain ⟨rfl, hp⟩ := List.append_inj' hsingle rfl
    cases hp
    exact hmore
  | cons c text ih =>
    rw [List.cons_append, pieces]
    rw [pieces] at htext
    by_cases hc : separates c
    · rw [if_pos hc] at htext ⊢
      cases init with
      | nil => exact absurd (List.cons.inj htext).2 (pieces_ne_nil separates text)
      | cons i init =>
        obtain ⟨rfl, hrest⟩ := List.cons.inj htext
        rw [ih hrest]
        rfl
    · rw [if_neg hc] at htext ⊢
      cases hpieces : pieces separates text with
      | nil => exact absurd hpieces (pieces_ne_nil separates text)
      | cons first others =>
        rw [hpieces] at htext
        cases init with
        | nil =>
          obtain ⟨rfl, rfl⟩ := List.cons.inj htext
          have hfirst : pieces separates text = [] ++ [first] := hpieces
          rw [ih hfirst]
          rfl
        | cons i init =>
          obtain ⟨rfl, rfl⟩ := List.cons.inj htext
          have hfirst : pieces separates text = first :: init ++ [p] := hpieces
          rw [ih hfirst]
          rfl

theorem pieces_of_forall {text : List Char} (h : ∀ c ∈ text, separates c = false) :
    pieces separates text = [text] := by
  induction text with
  | nil => rfl
  | cons c text ih =>
    obtain ⟨hc, htext⟩ := List.forall_mem_cons.mp h
    rw [pieces, hc, if_neg Bool.false_ne_true, ih htext]

theorem pieces_of_not_mem {separator : Char} {text : List Char} (h : separator ∉ text) :
    pieces (· == separator) text = [text] := by
  apply pieces_of_forall
  intro c hc
  rw [beq_eq_false_iff_ne]
  rintro rfl
  exact h hc

/-- Texts without the separator are what their row is cut into again. -/
theorem pieces_joined {separator : Char} {parts : List (List Char)} (hne : parts ≠ [])
    (h : ∀ part ∈ parts, separator ∉ part) :
    pieces (· == separator) (joined separator parts) = parts := by
  induction parts with
  | nil => exact absurd rfl hne
  | cons part parts ih =>
    obtain ⟨hpart, hparts⟩ := List.forall_mem_cons.mp h
    cases parts with
    | nil => exact pieces_of_not_mem hpart
    | cons other parts =>
      have hcut (rest : List Char) : pieces (· == separator) (part ++ separator :: rest) =
          pieces (· == separator) part ++ pieces (· == separator) rest :=
        pieces_separator_append (by simp) part rest
      rw [joined, hcut, pieces_of_not_mem hpart, ih (List.cons_ne_nil _ _) hparts, List.singleton_append]
      exact List.cons_ne_nil _ _

theorem joined_eq_intercalate (separator : Char) (parts : List (List Char)) :
    joined separator parts = [separator].intercalate parts := by
  induction parts with
  | nil => rfl
  | cons part parts ih =>
    cases parts with
    | nil => exact List.intercalate_singleton.symm
    | cons other parts =>
      rw [joined, ih, List.intercalate_cons_cons, List.append_assoc, List.singleton_append]
      exact List.cons_ne_nil other parts

/-- Nothing but separators is lost. -/
theorem flatten_pieces (separates : Char → Bool) (text : List Char) :
    (pieces separates text).flatten = text.filter fun c => !separates c := by
  induction text with
  | nil => rfl
  | cons c text ih =>
    rw [pieces]
    split
    next hc => rw [List.flatten_cons, List.nil_append, ih, List.filter_cons_of_neg (by simp [hc])]
    next hc =>
      rw [List.filter_cons_of_pos (by simp [hc]), ← ih]
      cases hpieces : pieces separates text with
      | nil => exact absurd hpieces (pieces_ne_nil separates text)
      | cons piece rest => rfl

theorem cutFirst_append {separator : Char} {before : List Char} (h : separator ∉ before)
    (after : List Char) : cutFirst separator (before ++ separator :: after) = some (before, after) := by
  induction before with
  | nil => simp [cutFirst]
  | cons c before ih =>
    rw [List.mem_cons, not_or] at h
    rw [List.cons_append, cutFirst, if_neg (Ne.symm h.1), ih h.2, Option.map_some]

theorem length_of_cutFirst {separator : Char} {text before after : List Char}
    (h : cutFirst separator text = some (before, after)) : after.length < text.length := by
  rw [(cutFirst_eq_some h).1, List.length_append, List.length_cons]
  omega

theorem exists_of_mem_intercalate {glue : List Char} {texts : List (List Char)} {c : Char}
    (h : c ∈ glue.intercalate texts) : c ∈ glue ∨ ∃ text ∈ texts, c ∈ text := by
  induction texts with
  | nil => cases h
  | cons text texts ih =>
    cases texts with
    | nil =>
      rw [List.intercalate_singleton] at h
      exact Or.inr ⟨text, List.mem_cons_self, h⟩
    | cons other texts =>
      rw [List.intercalate_cons_cons, List.append_assoc] at h
      rcases List.mem_append.mp h with h | h
      · exact Or.inr ⟨text, List.mem_cons_self, h⟩
      · rcases List.mem_append.mp h with h | h
        · exact Or.inl h
        · refine (ih h).imp_right fun ⟨found, hfound, hc⟩ => ?_
          exact ⟨found, List.mem_cons_of_mem text hfound, hc⟩

theorem mem_joined {separator c : Char} {parts : List (List Char)}
    (h : c ∈ joined separator parts) : c = separator ∨ ∃ part ∈ parts, c ∈ part := by
  rw [joined_eq_intercalate] at h
  exact (exists_of_mem_intercalate h).imp_left List.mem_singleton.mp

theorem length_le_intercalate {glue text : List Char} {texts : List (List Char)}
    (h : text ∈ texts) : text.length ≤ (glue.intercalate texts).length := by
  induction texts with
  | nil => cases h
  | cons first texts ih =>
    rcases texts with _ | ⟨other, texts⟩
    · obtain rfl := List.mem_singleton.mp h
      exact Nat.le_of_eq (congrArg List.length List.intercalate_singleton.symm)
    · rw [List.intercalate_cons_cons, List.length_append, List.length_append]
      rcases List.mem_cons.mp h with rfl | h
      · omega
      · have := ih h
        omega

theorem length_le_joined {separator : Char} {part : List Char} {parts : List (List Char)}
    (h : part ∈ parts) : part.length ≤ (joined separator parts).length := by
  rw [joined_eq_intercalate]
  exact length_le_intercalate h

end RecordDefinitions.Text
