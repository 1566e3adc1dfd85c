import RecordDefinitions.Decimal.Digits

/-!
# Escaped octets

A percent sign and two hexadecimal digits stand for an octet. Decoding a text
puts in place of such octets the characters that they encode in UTF-8, and keeps
everything else; octets that encode no characters make the whole text wrong.
-/

namespace RecordDefinitions.Text

/-- An escaped octet at the start of a text, and what follows it. -/
def octet? : List Char → Option (Nat × List Char)
  | '%' :: a :: b :: rest => (Decimal.ofBase? 16 [a, b]).map (·, rest)
  | _ => none

theorem length_of_octet? {cs rest : List Char} {octet : Nat} (h : octet? cs = some (octet, rest)) :
    rest.length < cs.length := by
  unfold octet? at h
  split at h
  · simp only [Option.map_eq_some_iff, Prod.mk.injEq] at h
    obtain ⟨_, _, _, rfl⟩ := h
    simp only [List.length_cons]
    omega
  · simp at h

/-- The further octets of a character, with the bits so far. -/
def furtherOctets? : Nat → Nat → List Char → Option (Nat × List Char)
  | 0, bits, cs => some (bits, cs)
  | count + 1, bits, cs =>
    match octet? cs with
    | some (octet, rest) =>
      if octet / 64 = 2 then furtherOctets? count (bits * 64 + octet % 64) rest else none
    | none => none

theorem length_of_furtherOctets? {count bits n : Nat} {cs rest : List Char}
    (h : furtherOctets? count bits cs = some (n, rest)) : rest.length ≤ cs.length := by
  induction count generalizing bits cs with
  | zero =>
    simp only [furtherOctets?, Option.some.injEq, Prod.mk.injEq] at h
    exact h.2 ▸ Nat.le_refl _
  | succ count ih =>
    simp only [furtherOctets?] at h
    split at h
    · rename_i octet tail e
      split at h
      · exact Nat.le_of_lt (Nat.lt_of_le_of_lt (ih h) (length_of_octet? e))
      · simp at h
    · simp at h

/-- The character that is made of some bits and of those in further octets. It
has to be a character and not be below the least one that needs them. -/
def assembled? (least count bits : Nat) (cs : List Char) : Option (Char × List Char) :=
  match furtherOctets? count bits cs with
  | some (n, rest) => if least ≤ n ∧ n.isValidChar then some (Char.ofNat n, rest) else none
  | none => none

theorem length_of_assembled? {least count bits : Nat} {cs rest : List Char} {c : Char}
    (h : assembled? least count bits cs = some (c, rest)) : rest.length ≤ cs.length := by
  unfold assembled? at h
  split at h
  · rename_i n tail e
    split at h
    · simp only [Option.some.injEq, Prod.mk.injEq] at h
      exact h.2 ▸ length_of_furtherOctets? e
    · simp at h
  · simp at h

/-- The character whose octets start with a given one, and the text after them. -/
def character? (octet : Nat) (rest : List Char) : Option (Char × List Char) :=
  if octet < 0x80 then assembled? 0 0 octet rest
  else if octet < 0xC0 then none
  else if octet < 0xE0 then assembled? 0x80 1 (octet % 32) rest
  else if octet < 0xF0 then assembled? 0x800 2 (octet % 16) rest
  else if octet < 0xF8 then assembled? 0x10000 3 (octet % 8) rest
  else none

theorem length_of_character? {octet : Nat} {cs rest : List Char} {c : Char}
    (h : character? octet cs = some (c, rest)) : rest.length ≤ cs.length := by
  unfold character? at h
  split at h
  · exact length_of_assembled? h
  split at h
  · simp at h
  split at h
  · exact length_of_assembled? h
  split at h
  · exact length_of_assembled? h
  split at h
  · exact length_of_assembled? h
  · simp at h

/-- The text with characters in place of escaped octets. -/
def decoded? (cs : List Char) : Option (List Char) :=
  match cs with
  | [] => some []
  | c :: rest =>
    match _h : octet? (c :: rest) with
    | none => (decoded? rest).map (c :: ·)
    | some (octet, after) =>
      match _g : character? octet after with
      | none => none
      | some (d, others) => (decoded? others).map (d :: ·)
termination_by cs.length
decreasing_by
  · simp
  · have := length_of_octet? _h
    have := length_of_character? _g
    omega

end RecordDefinitions.Text
