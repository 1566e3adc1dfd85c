/-!
# Cutting text

Text is cut as a list of characters. `pieces` cuts at every separator and
`cutFirst`, `cutLast` at one of them; `joined_pieces`, `cutFirst_eq_some` and
`cutLast_eq_some` say that nothing but separators is lost.
-/

namespace RecordDefinitions.Text

/-- The runs between separators, at least one; two neighbouring separators
enclose an empty run. -/
def pieces (separates : Char → Bool) : List Char → List (List Char)
  | [] => [[]]
  | c :: cs =>
    if separates c then [] :: pieces separates cs
    else
      match pieces separates cs with
      | [] => [[c]]
      | p :: ps => (c :: p) :: ps

theorem pieces_ne_nil (separates : Char → Bool) (cs : List Char) :
    pieces separates cs ≠ [] := by
  cases cs with
  | nil => simp [pieces]
  | cons c cs =>
    by_cases h : separates c
    · simp [pieces, h]
    · cases e : pieces separates cs <;> simp [pieces, h, e]

/-- Pieces put together again with one separator character between them. -/
def joined (separator : Char) : List (List Char) → List Char
  | [] => []
  | [p] => p
  | p :: ps => p ++ separator :: joined separator ps

theorem joined_pieces (separator : Char) (cs : List Char) :
    joined separator (pieces (· == separator) cs) = cs := by
  induction cs with
  | nil => rfl
  | cons c cs ih =>
    have n := pieces_ne_nil (· == separator) cs
    by_cases h : c = separator
    · subst h
      have e : pieces (· == c) (c :: cs) = [] :: pieces (· == c) cs := by simp [pieces]
      rw [e]
      cases g : pieces (· == c) cs with
      | nil => exact absurd g n
      | cons p ps =>
        rw [g] at ih
        simp [joined, ih]
    · cases e : pieces (· == separator) cs with
      | nil => exact absurd e n
      | cons p ps =>
        cases ps <;> simp_all [pieces, joined]

/-- The text before and after the first separator. -/
def cutFirst (separator : Char) : List Char → Option (List Char × List Char)
  | [] => none
  | c :: cs =>
    if c = separator then some ([], cs)
    else (cutFirst separator cs).map fun (before, after) => (c :: before, after)

/-- The text before and after the last separator. -/
def cutLast (separator : Char) : List Char → Option (List Char × List Char)
  | [] => none
  | c :: cs =>
    match cutLast separator cs with
    | some (before, after) => some (c :: before, after)
    | none => if c = separator then some ([], cs) else none

theorem cutFirst_eq_some {separator : Char} {cs before after : List Char}
    (h : cutFirst separator cs = some (before, after)) :
    cs = before ++ separator :: after ∧ separator ∉ before := by
  induction cs generalizing before with
  | nil => simp [cutFirst] at h
  | cons c cs ih =>
    by_cases e : c = separator
    · simp only [cutFirst, e, if_pos, Option.some.injEq, Prod.mk.injEq] at h
      simp [← h.1, ← h.2, e]
    · simp only [cutFirst, if_neg e, Option.map_eq_some_iff] at h
      obtain ⟨⟨b, a⟩, hb, he⟩ := h
      simp only [Prod.mk.injEq] at he
      obtain ⟨rfl, rfl⟩ := he
      obtain ⟨h₁, h₂⟩ := ih hb
      exact ⟨by simp [h₁], by simp [h₂, Ne.symm e]⟩

theorem cutLast_eq_none {separator : Char} {cs : List Char}
    (h : cutLast separator cs = none) : separator ∉ cs := by
  induction cs with
  | nil => simp
  | cons c cs ih =>
    cases e : cutLast separator cs with
    | some p => simp [cutLast, e] at h
    | none =>
      by_cases g : c = separator
      · simp [cutLast, e, g] at h
      · simp [ih e, Ne.symm g]

theorem cutLast_eq_some {separator : Char} {cs before after : List Char}
    (h : cutLast separator cs = some (before, after)) :
    cs = before ++ separator :: after ∧ separator ∉ after := by
  induction cs generalizing before with
  | nil => simp [cutLast] at h
  | cons c cs ih =>
    cases e : cutLast separator cs with
    | some p =>
      obtain ⟨b, a⟩ := p
      simp only [cutLast, e, Option.some.injEq, Prod.mk.injEq] at h
      obtain ⟨rfl, rfl⟩ := h
      obtain ⟨h₁, h₂⟩ := ih e
      exact ⟨by rw [List.cons_append, ← h₁], h₂⟩
    | none =>
      by_cases g : c = separator
      · simp only [cutLast, e, g, if_pos, Option.some.injEq, Prod.mk.injEq] at h
        obtain ⟨rfl, rfl⟩ := h
        exact ⟨by simp [g], cutLast_eq_none e⟩
      · simp [cutLast, e, g] at h

/-- The text without a given beginning, if it has that beginning. -/
def after? (beginning text : List Char) : Option (List Char) :=
  if beginning.isPrefixOf text then some (text.drop beginning.length) else none

/-- The text without a given ending, if it has that ending. -/
def before? (ending text : List Char) : Option (List Char) :=
  if ending.isSuffixOf text then some (text.take (text.length - ending.length)) else none

end RecordDefinitions.Text
