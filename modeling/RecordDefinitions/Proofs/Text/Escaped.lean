import RecordDefinitions.Text.Escaped

/-!
# Escaped octets in a text

Decoding goes character by character up to an octet, so a text that holds none is kept as it is.
-/

namespace RecordDefinitions.Text

/-- Some percent sign of the text is followed by two hexadecimal digits. -/
def holdsOctet : List Char → Bool
  | [] => false
  | c :: cs => (octet? (c :: cs)).isSome || holdsOctet cs

theorem octet?_of_ne {c : Char} (h : c ≠ '%') (cs : List Char) : octet? (c :: cs) = none := by
  unfold octet?
  split
  · rename_i heq
    exact absurd (List.cons.inj heq).1 h
  · rfl

theorem length_octet? {cs rest : List Char} {octet : Nat} (h : octet? cs = some (octet, rest)) :
    rest.length + 3 = cs.length := by
  unfold octet? at h
  split at h
  · obtain ⟨_, -, heq⟩ := Option.map_eq_some_iff.mp h
    rw [← (Prod.mk.inj heq).2]
    rfl
  · cases h

theorem decoded?_of_octet?_none {c : Char} {cs : List Char} (h : octet? (c :: cs) = none) :
    decoded? (c :: cs) = (decoded? cs).map (c :: ·) := by
  rw [decoded?]
  split
  · rfl
  · rename_i heq
    rw [h] at heq
    cases heq

theorem decoded?_of_octet?_some {cs after : List Char} {octet : Nat}
    (h : octet? cs = some (octet, after)) :
    decoded? cs = (character? octet after).bind fun (c, others) =>
      (decoded? others).map (c :: ·) := by
  cases cs with
  | nil => cases h
  | cons d rest =>
    rw [decoded?]
    split
    · rename_i heq
      rw [h] at heq
      cases heq
    · rename_i octet' after' heq
      obtain ⟨rfl, rfl⟩ := Prod.mk.inj (Option.some.inj (h.symm.trans heq))
      split
      · rename_i hnone
        rw [hnone]
        rfl
      · rename_i hsome
        rw [hsome]
        rfl

theorem holdsOctet_cons {c : Char} {cs : List Char} :
    holdsOctet (c :: cs) = false ↔ octet? (c :: cs) = none ∧ holdsOctet cs = false := by
  rw [holdsOctet, Bool.or_eq_false_iff, Option.isSome_eq_false_iff, Option.isNone_iff_eq_none]

theorem holdsOctet_of_ne {c : Char} (h : c ≠ '%') (cs : List Char) :
    holdsOctet (c :: cs) = holdsOctet cs := by
  rw [holdsOctet, octet?_of_ne h, Option.isSome_none, Bool.false_or]

theorem decoded?_of_not_holdsOctet {cs : List Char} (h : holdsOctet cs = false) :
    decoded? cs = some cs := by
  induction cs with
  | nil => rw [decoded?]
  | cons c cs ih =>
    obtain ⟨hoctet, hrest⟩ := holdsOctet_cons.mp h
    rw [decoded?_of_octet?_none hoctet, ih hrest]
    rfl

theorem not_holdsOctet_of_not_mem {cs : List Char} (h : '%' ∉ cs) : holdsOctet cs = false := by
  induction cs with
  | nil => rfl
  | cons c cs ih =>
    rw [List.mem_cons, not_or] at h
    exact holdsOctet_cons.mpr ⟨octet?_of_ne (Ne.symm h.1) cs, ih h.2⟩

/-- A text without percent signs is decoded as it is. -/
theorem decoded?_of_not_mem {cs : List Char} (h : '%' ∉ cs) : decoded? cs = some cs :=
  decoded?_of_not_holdsOctet (not_holdsOctet_of_not_mem h)

end RecordDefinitions.Text
