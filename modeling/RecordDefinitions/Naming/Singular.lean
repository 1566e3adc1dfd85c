import RecordDefinitions.Text.Pieces

/-!
# Singular forms

A best effort at the singular of an English word. A word that no rule covers is
its own singular. Rules look at ASCII letters without regard to case.
-/

namespace RecordDefinitions.Naming

/-- Plurals with a singular of their own. -/
def irregularPlurals : List (String × String) :=
  [("people", "person"), ("children", "child"), ("men", "man"), ("women", "woman"),
    ("mice", "mouse"), ("geese", "goose"), ("teeth", "tooth"), ("feet", "foot")]

/-- Plurals that are written like their singular. -/
def unchangedPlurals : List String := ["series", "species", "news"]

/-- Whether `ending` stands at the end of the word, in any case. -/
def endsWith (word : List Char) (ending : String) : Bool :=
  ending.toList.isSuffixOf (word.map Char.toLower)

/-- The singular of a word that ends in an irregular plural. The plural has to
be the whole word or a word of its own: after something that is no letter or
digit, or starting with a capital. -/
def irregularSingular? (word : List Char) (entry : String × String) : Option (List Char) :=
  let (plural, singular) := entry
  if endsWith word plural then
    let stem := word.take (word.length - plural.length)
    let tail := word.drop (word.length - plural.length)
    let capital := tail.head?.any Char.isUpper
    if stem.isEmpty || stem.getLast?.any (fun c => !c.isAlphanum) || capital then
      let singular := singular.toList
      some (stem ++ if capital then singular.take 1 |>.map Char.toUpper |>.append (singular.drop 1)
        else singular)
    else none
  else none

/-- The word without its last `n` letters. -/
def shortened (word : List Char) (n : Nat) : List Char := word.take (word.length - n)

/-- The singular by the regular rules for `-ies`, `-es` and `-s`. -/
def regularSingular (word : List Char) : List Char :=
  if endsWith word "ies" && 3 < word.length then shortened word 3 ++ ['y']
  else if ["sses", "xes", "zes", "ches", "shes"].any (endsWith word) then shortened word 2
  else if endsWith word "s" && !endsWith word "ss" && !endsWith word "us"
      && !endsWith word "is" && 1 < word.length then shortened word 1
  else word

/-- The singular of a word. -/
def singularChars (word : List Char) : List Char :=
  match irregularPlurals.findSome? (irregularSingular? word) with
  | some singular => singular
  | none =>
    if unchangedPlurals.any (endsWith word) then word else regularSingular word

def singular (word : String) : String := String.ofList (singularChars word.toList)

end RecordDefinitions.Naming
