import RecordDefinitions.Proofs.TypeExpr.Brackets
import RecordDefinitions.Proofs.TypeExpr.Names

/-!
# The steps of the reader

The reader first finds out what an alternative may be and then reads its parts; a whole text
it cuts at its bars. The equations say how fuel is spent, and the cuts need none.
-/

namespace RecordDefinitions.TypeExpr

/-! ## Alternatives -/

/-- What the reader takes an alternative for, with the parts that it goes on with. -/
inductive Cut where
  | suffixed (inner : List Char)
  | bareArray
  | brackets (pieces : List (List Char))
  | name

/-- The outermost cut of an alternative. -/
def cut (part : List Char) : Cut :=
  match Text.before? ['[', ']'] part with
  | some inner => .suffixed (Text.trim inner)
  | none =>
    if part = "array".toList then .bareArray
    else
      match arrayArguments? part with
      | some inner => .brackets (topLevelPieces ',' 0 inner)
      | none => .name

/-- What the reader makes of the parts. -/
def readCut (fuel : Nat) (whole part : List Char) : Cut → Except Fault TypeExpr
  | .suffixed inner => (readMember fuel whole inner).map list
  | .bareArray => .ok (map (scalar .mixed))
  | .brackets [element] => (readElement fuel whole element).map list
  | .brackets [key, element] =>
    if Text.trim key = "string".toList then (readElement fuel whole element).map map
    else if Text.trim key = "int".toList then (readElement fuel whole element).map list
    else .error (.malformed (String.ofList whole))
  | .brackets _ => .error (.malformed (String.ofList whole))
  | .name =>
    match readName? part with
    | some t => .ok t
    | none => .error (.malformed (String.ofList whole))

theorem readMember_succ {fuel : Nat} {whole part : List Char} (hne : part ≠ []) :
    readMember (fuel + 1) whole part = readCut fuel whole part (cut part) := by
  rw [readMember, if_neg (by simpa using hne), cut]
  cases Text.before? ['[', ']'] part with
  | some inner => rfl
  | none =>
    dsimp only
    by_cases harray : part = "array".toList
    · rw [if_pos harray, if_pos harray]
      rfl
    · rw [if_neg harray, if_neg harray]
      cases arrayArguments? part with
      | none => rfl
      | some inner =>
        dsimp only
        rcases topLevelPieces ',' 0 inner with _ | ⟨first, _ | ⟨second, _ | ⟨third, rest⟩⟩⟩ <;> rfl

/-- The marks by which a text would be cut are no characters of words. -/
theorem cut_word {text : List Char} (h : IsWord text) (hne : text ≠ "array".toList) :
    cut text = .name := by
  have hsuffix : Text.before? ['[', ']'] text = none := by
    refine Text.before?_eq_none ['['] (h.ends.imp ?_)
    rintro c hc rfl
    cases hc
  have hopen : '<' ∉ text := fun hmem => h.ne_of_mem hmem rfl rfl
  have harguments : arrayArguments? text = none := by
    rw [arrayArguments?, Text.after?_eq_none (c := '<') (by decide) hopen, Option.bind_none]
  rw [cut, hsuffix, harguments, if_neg hne]

theorem cut_brackets (inner : List Char) :
    cut ("array".toList ++ ('<' :: inner ++ ['>'])) = .brackets (topLevelPieces ',' 0 inner) := by
  have hsuffix : Text.before? ['[', ']'] ("array".toList ++ ('<' :: inner ++ ['>'])) = none :=
    Text.before?_eq_none ['['] ⟨_, '>', (List.append_assoc _ _ _).symm, by decide⟩
  have hsplit : "array".toList ++ ('<' :: inner ++ ['>']) = "array<".toList ++ (inner ++ ['>']) := rfl
  have harguments : arrayArguments? ("array".toList ++ ('<' :: inner ++ ['>'])) = some inner := by
    rw [hsplit, arrayArguments?, Text.after?_append, Option.bind_some, Text.before?_append]
  rw [cut, hsuffix, harguments, if_neg (by simp)]

theorem cut_suffix (inner : List Char) :
    cut (inner ++ ['[', ']']) = .suffixed (Text.trim inner) := by
  rw [cut, Text.before?_append]

/-- The texts that the reader goes on with. -/
def Cut.parts : Cut → List (List Char)
  | .suffixed inner => [inner]
  | .brackets pieces => pieces
  | _ => []

theorem length_of_mem_parts_cut {part inner : List Char} (h : inner ∈ (cut part).parts) :
    inner.length + 2 ≤ part.length := by
  unfold cut at h
  split at h
  · next rest hrest =>
    obtain rfl := Text.before?_eq_some_iff.mp hrest
    obtain rfl := List.mem_singleton.mp h
    have hlength := Text.length_trim_le rest
    rw [List.length_append]
    exact Nat.add_le_add_right hlength 2
  · split_ifs at h with harray
    · cases h
    · split at h
      · next rest hrest =>
        obtain ⟨after, hafter, hbefore⟩ := Option.bind_eq_some_iff.mp hrest
        have hlength := length_le_of_mem_topLevelPieces h
        rw [Text.before?_eq_some_iff] at hbefore
        rw [Text.after?_eq_some_iff.mp hafter, hbefore, List.length_append, List.length_append]
        have harray : "array<".toList.length = 6 := rfl
        omega
      · cases h

theorem trim_of_cut_suffixed {part inner : List Char} (h : cut part = .suffixed inner) :
    Text.trim inner = inner := by
  unfold cut at h
  split at h
  · cases h
    exact Text.trim_trim _
  · split_ifs at h
    split at h <;> cases h

/-! ## Whole texts -/

/-- A text without a question mark in front, and whether there was one. -/
def unmarked : List Char → List Char × Bool
  | '?' :: rest => (rest, true)
  | whole => (whole, false)

theorem unmarked_of_starts {whole : List Char} (h : Text.Starts (· ≠ '?') whole) :
    unmarked whole = (whole, false) := by
  obtain ⟨c, rest, rfl, hc⟩ := h
  unfold unmarked
  split
  · next heq => exact absurd (List.cons.inj heq).1 hc
  · rfl

theorem append_unmarked (whole : List Char) :
    (if (unmarked whole).2 then '?' :: (unmarked whole).1 else (unmarked whole).1) = whole := by
  unfold unmarked
  split <;> rfl

/-- Whether a piece between bars is `null`. -/
def isNull (piece : List Char) : Bool := Text.trim piece == "null".toList

theorem readText_succ (fuel : Nat) (text : List Char) :
    readText (fuel + 1) text =
      let (body, marked) := unmarked (Text.trim text)
      let pieces := topLevelPieces '|' 0 body
      if body.isEmpty then .error (.malformed (String.ofList text))
      else do
        let members ← (pieces.filter (!isNull ·)).mapM fun piece =>
          readMember fuel text (Text.trim piece)
        if members.isEmpty then return (scalar .mixed, true)
        return (unionOf members, marked || pieces.any isNull) := by
  rw [readText]
  simp only [List.filter_map, List.mapM_map, List.any_map]
  rfl

theorem length_unmarked_le (whole : List Char) : (unmarked whole).1.length ≤ whole.length := by
  unfold unmarked
  split
  · exact Nat.le_succ _
  · exact le_rfl

end RecordDefinitions.TypeExpr
