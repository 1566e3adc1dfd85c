/-!
# Decimal digits

Whole numbers as digit characters and back. `value_digits` says that the digits
of a number read back as that number, so different numbers have different
digits (`digits_injective`).
-/

namespace RecordDefinitions.Decimal

/-- The character of a digit below ten. -/
def digitChar (d : Nat) : Char := Char.ofNat (48 + d)

/-- The number that a digit character stands for. -/
def digitValue (c : Char) : Nat := c.toNat - 48

/-- The digits of a number, most significant first. -/
def digits (n : Nat) : List Char :=
  if n < 10 then [digitChar n] else digits (n / 10) ++ [digitChar (n % 10)]
termination_by n

/-- The number that a list of digits denotes. -/
def value (cs : List Char) : Nat := cs.foldl (fun n c => 10 * n + digitValue c) 0

theorem digitValue_digitChar {d : Nat} (h : d < 10) : digitValue (digitChar d) = d := by
  have all : ∀ d < 10, digitValue (digitChar d) = d := by decide
  exact all d h

theorem isDigit_digitChar {d : Nat} (h : d < 10) : (digitChar d).isDigit = true := by
  have all : ∀ d < 10, (digitChar d).isDigit = true := by decide
  exact all d h

theorem value_append_digit (cs : List Char) (c : Char) :
    value (cs ++ [c]) = 10 * value cs + digitValue c := by
  simp [value]

theorem value_digits (n : Nat) : value (digits n) = n := by
  induction n using Nat.strongRecOn with
  | ind n ih =>
    rw [digits]
    split
    · rename_i h
      simp [value, digitValue_digitChar h]
    · rw [value_append_digit, ih (n / 10) (by omega), digitValue_digitChar (by omega)]
      omega

theorem digits_injective {m n : Nat} (h : digits m = digits n) : m = n := by
  rw [← value_digits m, h, value_digits]

theorem isDigit_of_mem_digits {n : Nat} {c : Char} (h : c ∈ digits n) : c.isDigit = true := by
  induction n using Nat.strongRecOn with
  | ind n ih =>
    rw [digits] at h
    split at h
    · rename_i small
      rw [List.mem_singleton.1 h]
      exact isDigit_digitChar small
    · rcases List.mem_append.1 h with h | h
      · exact ih (n / 10) (by omega) h
      · rw [List.mem_singleton.1 h]
        exact isDigit_digitChar (by omega)

theorem digits_ne_nil (n : Nat) : digits n ≠ [] := by
  rw [digits]
  split <;> simp

/-- The digits of a number as text. -/
def text (n : Nat) : String := String.ofList (digits n)

/-- A whole number as text, with a minus sign if it is negative. -/
def signedText : Int → String
  | .ofNat n => text n
  | .negSucc n => "-" ++ text (n + 1)

/-- The number that a text of digits in some base denotes, if it is one. -/
def ofBase? (base : Nat) (cs : List Char) : Option Nat :=
  if cs = [] then none else cs.foldlM (fun n c => (digitIn c).map (base * n + ·)) 0
where
  /-- The value of a digit of the base; letters of either case stand for ten and more. -/
  digitIn (c : Char) : Option Nat :=
    let d :=
      if c.isDigit then c.toNat - 48
      else if c.isLower then c.toNat - 87
      else if c.isUpper then c.toNat - 55
      else base
    if d < base then some d else none

end RecordDefinitions.Decimal
