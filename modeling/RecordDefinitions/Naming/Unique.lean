import RecordDefinitions.Decimal.Digits

/-!
# Unique names

A name that is taken gets the smallest number from two on that makes it free.
Among `n` taken names and `n + 1` candidates one candidate is free, so the
search has a bound (`isSome_freeNumber?`) and its result is new
(`uniqueName_not_mem`).
-/

namespace RecordDefinitions.Naming

/-- A base followed by a number. -/
def numbered (base : String) (n : Nat) : String := base ++ Decimal.text n

theorem numbered_injective {base : String} {m n : Nat} (h : numbered base m = numbered base n) :
    m = n := by
  have e : base.toList ++ Decimal.digits m = base.toList ++ Decimal.digits n := by
    simpa [numbered, Decimal.text] using congrArg String.toList h
  exact Decimal.digits_injective (List.append_cancel_left e)

/-- The first number from two on whose name is free. -/
def freeNumber? (used : List String) (base : String) : Option Nat :=
  (List.range' 2 (used.length + 1)).find? fun n => !used.contains (numbered base n)

/-- The base itself if it is free, and otherwise the base with the first number
that makes it free. -/
def uniqueName (used : List String) (base : String) : String :=
  if used.contains base then numbered base ((freeNumber? used base).getD 2) else base

theorem uniqueName_of_not_mem {used : List String} {base : String} (h : base ∉ used) :
    uniqueName used base = base := by
  simp [uniqueName, h]

/-- The number that is found is free, and no smaller one is. -/
theorem freeNumber?_eq_some {used : List String} {base : String} {n : Nat}
    (h : freeNumber? used base = some n) :
    2 ≤ n ∧ numbered base n ∉ used ∧ ∀ k, 2 ≤ k → k < n → numbered base k ∈ used := by
  obtain ⟨free, i, bound, place, before⟩ := List.find?_eq_some_iff_getElem.mp h
  simp only [List.getElem_range'] at place
  refine ⟨by omega, by simpa using free, ?_⟩
  intro k low high
  have taken := before (k - 2) (by omega)
  simp only [List.getElem_range', Bool.not_not, List.contains_iff_mem] at taken
  rwa [show 2 + 1 * (k - 2) = k by omega] at taken

/-- Names that hold `count` numbers in a row are at least that many. -/
theorem le_length_of_taken {base : String} (count start : Nat) {names : List String}
    (taken : ∀ k, start ≤ k → k < start + count → numbered base k ∈ names) :
    count ≤ names.length := by
  induction count generalizing start names with
  | zero => exact Nat.zero_le _
  | succ count ih =>
    have first : numbered base start ∈ names := taken start (Nat.le_refl _) (by omega)
    have others : count ≤ (names.erase (numbered base start)).length := by
      apply ih (start + 1)
      intro k low high
      refine (List.mem_erase_of_ne ?_).mpr (taken k (by omega) (by omega))
      exact fun same => Nat.ne_of_gt low (numbered_injective same)
    have shorter := List.length_erase_of_mem first
    have nonempty := List.length_pos_of_mem first
    omega

theorem isSome_freeNumber? (used : List String) (base : String) :
    (freeNumber? used base).isSome := by
  cases h : freeNumber? used base with
  | some n => rfl
  | none =>
    have none_free := List.find?_eq_none.mp h
    have bound : used.length + 1 ≤ used.length := by
      apply le_length_of_taken (used.length + 1) 2
      intro k low high
      have candidate : k ∈ List.range' 2 (used.length + 1) := by
        rw [List.mem_range'_1]
        omega
      simpa using none_free k candidate
    omega

theorem uniqueName_not_mem (used : List String) (base : String) :
    uniqueName used base ∉ used := by
  by_cases h : base ∈ used
  · obtain ⟨n, found⟩ := Option.isSome_iff_exists.mp (isSome_freeNumber? used base)
    simpa [uniqueName, h, found] using (freeNumber?_eq_some found).2.1
  · rwa [uniqueName_of_not_mem h]

end RecordDefinitions.Naming
