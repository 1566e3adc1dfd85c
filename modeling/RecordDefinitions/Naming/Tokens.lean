import RecordDefinitions.Text.Pieces

/-!
# Word tokens

A name in any casing is read as a list of lower-case words. Only ASCII letters
and digits count: everything else separates words. Inside a run of letters and
digits a word ends before an upper-case letter that follows a lower-case one
(`userName`), and before the last of several upper-case letters when a
lower-case one comes next (`HTTPServer`).
-/

namespace RecordDefinitions.Naming

/-- Whether a word starts at `current`, which stands between `previous` and `next`. -/
def startsWord (previous current : Char) (next : Option Char) : Bool :=
  (previous.isLower && current.isUpper)
    || (previous.isUpper && current.isUpper && next.any Char.isLower)

/-- The words of a run of letters and digits. -/
def words : List Char → List (List Char)
  | [] => []
  | [c] => [[c]]
  | a :: b :: rest =>
    match words (b :: rest) with
    | [] => [[a]]
    | w :: ws => if startsWord a b rest.head? then [a] :: w :: ws else (a :: w) :: ws

theorem words_cons_ne_nil (c : Char) (cs : List Char) : words (c :: cs) ≠ [] := by
  cases cs with
  | nil => simp [words]
  | cons d ds =>
    cases h : words (d :: ds) with
    | nil => simp [words, h]
    | cons w ws => by_cases s : startsWord c d ds.head? <;> simp [words, h, s]

/-- Cutting into words loses no character. -/
theorem flatten_words (cs : List Char) : (words cs).flatten = cs := by
  induction cs with
  | nil => rfl
  | cons a cs ih =>
    cases cs with
    | nil => rfl
    | cons b rest =>
      cases h : words (b :: rest) with
      | nil => exact absurd h (words_cons_ne_nil b rest)
      | cons w ws =>
        rw [h] at ih
        by_cases s : startsWord a b rest.head? <;> simp_all [words]

/-- The lower-case words of a name. -/
def tokens (name : List Char) : List (List Char) :=
  ((Text.pieces (fun c => !c.isAlphanum) name).flatMap words).map (·.map Char.toLower)

end RecordDefinitions.Naming
