import RecordDefinitions.Proofs.Definition.Canonical
import RecordDefinitions.Proofs.Generation.Capture
import RecordDefinitions.Proofs.Record.Nullability

/-!
# Types of members read back

The text of a type is read with the precedence of the language: what follows the arrow of a
function type belongs to its result, as far as it goes, bars separate alternatives, and arguments
stand between angle brackets. What is read of a member is the type of its field, with null as a
further alternative where the field allows null. A field of functions that allows null is the only
one that is read as something else, because null is written behind the arrow.
-/

namespace RecordDefinitions.Interfaces

open Generation Text

/-! ## Reader -/

/-- What a type says. -/
inductive TypeTerm where
  /-- A name with the arguments behind it, if there are any. -/
  | applied (name : String) (arguments : List TypeTerm)
  | array (element : TypeTerm)
  /-- Functions of any number of arguments of one type. -/
  | function (arguments result : TypeTerm)
  | union (members : List TypeTerm)

/-- A name without arguments. -/
abbrev TypeTerm.word (name : String) : TypeTerm := applied name []

/-- The type of several alternatives, or the only one. -/
def TypeTerm.ofAlternatives : List TypeTerm → TypeTerm
  | [t] => t
  | ts => union ts

def TypeTerm.alternatives : TypeTerm → List TypeTerm
  | union members => members
  | t => [t]

/-- The text behind a mark that it starts with. Blanks in front of marks and names are passed
over. -/
def mark? (mark : String) (text : List Char) : Option (List Char) :=
  after? mark.toList (text.dropWhile (· == ' '))

/-- The name that the text starts with, and what follows it. -/
def readName (text : List Char) : Option (String × List Char) :=
  let text := text.dropWhile (· == ' ')
  let name := text.takeWhile fun c => !isGap c
  if name.isEmpty then none else some (String.ofList name, text.dropWhile fun c => !isGap c)

/-- The arrays of a type that the text goes on with, one for each pair of brackets. -/
def readBrackets (t : TypeTerm) : List Char → TypeTerm × List Char
  | '[' :: ']' :: rest => readBrackets (.array t) rest
  | rest => (t, rest)

mutual

/-- A type, and what follows it. Parameters show by their dots that this is a function type, whose
result is all of the type behind the arrow. Any other type is a row of alternatives. -/
def readTypeWithin (fuel : Nat) (text : List Char) : Option (TypeTerm × List Char) :=
  match fuel with
  | 0 => none
  | fuel + 1 =>
    match mark? "(..." text with
    | some rest => do
      let (_, rest) ← readName rest
      let rest ← mark? ":" rest
      let (arguments, rest) ← readTypeWithin fuel rest
      let rest ← mark? ")" rest
      let rest ← mark? "=>" rest
      let (result, rest) ← readTypeWithin fuel rest
      return (.function arguments result, rest)
    | none => do
      let (first, rest) ← readAlternative fuel text
      let (others, rest) ← readAlternatives fuel rest
      return (.ofAlternatives (first :: others), rest)

/-- The alternatives that the text goes on with, each behind a bar. -/
def readAlternatives (fuel : Nat) (text : List Char) : Option (List TypeTerm × List Char) :=
  match fuel with
  | 0 => none
  | fuel + 1 =>
    match mark? "|" text with
    | none => some ([], text)
    | some rest => do
      let (first, rest) ← readAlternative fuel rest
      let (others, rest) ← readAlternatives fuel rest
      return (first :: others, rest)

/-- A type in parentheses, or a name with its arguments, and the brackets behind it. -/
def readAlternative (fuel : Nat) (text : List Char) : Option (TypeTerm × List Char) :=
  match fuel with
  | 0 => none
  | fuel + 1 =>
    match mark? "(" text with
    | some rest => do
      let (t, rest) ← readTypeWithin fuel rest
      return readBrackets t (← mark? ")" rest)
    | none => do
      let (name, rest) ← readName text
      match mark? "<" rest with
      | none => return readBrackets (.word name) rest
      | some rest =>
        let (arguments, rest) ← readArguments fuel rest
        return readBrackets (.applied name arguments) rest

/-- Types with commas between them, up to the closing bracket. -/
def readArguments (fuel : Nat) (text : List Char) : Option (List TypeTerm × List Char) :=
  match fuel with
  | 0 => none
  | fuel + 1 => do
    let (first, rest) ← readTypeWithin fuel text
    match mark? "," rest with
    | some rest =>
      let (others, rest) ← readArguments fuel rest
      return (first :: others, rest)
    | none => return ([first], ← mark? ">" rest)

end

/-- The type that the text starts with, and what follows it. The fuel is spent on steps into the
text, and its length pays for all of them. -/
def readType (text : List Char) : Option (TypeTerm × List Char) :=
  readTypeWithin (3 * text.length + 1) text

/-! ## What is said of a field -/

/-- The type of a scalar kind. -/
def TypeTerm.ofScalar : ScalarKind → TypeTerm
  | .int | .float => word "number"
  | .string => word "string"
  | .bool => word "boolean"
  | .object => applied "Record" [word "string", word "unknown"]
  | .callable => function (array (word "unknown")) (word "unknown")
  | .iterable => applied "Iterable" [word "unknown"]
  | .mixed | .resource => word "unknown"

mutual

/-- The type of the values that a type stands for. -/
def TypeTerm.ofType (names : TypeNames) : TypeExpr → TypeTerm
  | .scalar kind => ofScalar kind
  | .list element => applied "Array" [ofType names element]
  | .map element => applied "Record" [word "string", ofType names element]
  | .definition name => word (interfaceName names name)
  | .external _ => word "unknown"
  | .union members => union (ofTypes names members)

def TypeTerm.ofTypes (names : TypeNames) : List TypeExpr → List TypeTerm
  | [] => []
  | t :: ts => ofType names t :: ofTypes names ts

end

/-- The type with null as a further alternative. -/
def TypeTerm.orNull (t : TypeTerm) : TypeTerm := union (t.alternatives ++ [word "null"])

/-- What the type of a member has to say of its field. -/
def TypeTerm.ofField (names : TypeNames) (f : FieldView) : TypeTerm :=
  if f.nullable then (ofType names f.type).orNull else ofType names f.type

/-! ## Marks and names -/

/-- Behind blanks the text goes on with one of some marks. -/
def GoesOn (marks : List Char) (text : List Char) : Prop :=
  Text.Starts (· ∈ marks) (text.dropWhile (· == ' '))

variable {marks : List Char} {rest : List Char}

theorem mark?_eq_none {mark : String} (h : GoesOn marks rest)
    (hmark : mark.toList.head?.any fun c => !marks.contains c) : mark? mark rest = none := by
  obtain ⟨d, more, htext, hd⟩ := h
  cases hhead : mark.toList with
  | nil => simp [hhead] at hmark
  | cons c others =>
    rw [hhead] at hmark
    have hne : c ≠ d := by
      rintro rfl
      simp [hd] at hmark
    rw [mark?, htext, hhead]
    exact after?_of_ne hne [] others more

theorem mark?_blank (mark : String) (rest : List Char) : mark? mark (' ' :: rest) = mark? mark rest := rfl

theorem goesOn_cons {c : Char} (hc : c ∈ marks) (hblank : c ≠ ' ') (rest : List Char) :
    GoesOn marks (c :: rest) := by
  refine ⟨c, rest, List.dropWhile_cons_of_neg (by simpa using hblank), hc⟩

/-- Marks end a name, and so do blanks. -/
theorem GoesOn.starts (h : GoesOn marks rest) (hmarks : marks.all isGap) :
    Text.Starts (fun c => isGap c) rest := by
  obtain ⟨d, more, htext, hd⟩ := h
  cases rest with
  | nil => cases htext
  | cons c rest =>
    refine ⟨c, rest, rfl, ?_⟩
    by_cases hblank : c = ' '
    · rw [hblank]
      rfl
    · rw [List.dropWhile_cons_of_neg (by simpa using hblank)] at htext
      rw [(List.cons.inj htext).1]
      exact List.all_eq_true.mp hmarks d hd

theorem starts_of_isPlain {name : String} (hname : isPlain name) :
    Text.Starts (fun c => isGap c = false) name.toList := by
  obtain ⟨hne, hall⟩ := Bool.and_eq_true_iff.mp hname
  refine Text.starts_of_forall (by simpa using hne) fun c hc => ?_
  simpa using List.all_eq_true.mp hall c hc

theorem dropWhile_blank_append {name : String} (hname : isPlain name) (rest : List Char) :
    (name.toList ++ rest).dropWhile (· == ' ') = name.toList ++ rest := by
  obtain ⟨c, more, htext, hc⟩ := starts_of_isPlain hname
  have hblank : c ≠ ' ' := by
    rintro rfl
    cases hc
  rw [htext]
  exact List.dropWhile_cons_of_neg (by simpa using hblank)

theorem readName_append {name : String} (hname : isPlain name)
    (h : Text.Starts (fun c => isGap c) rest) :
    readName (name.toList ++ rest) = some (name, rest) := by
  obtain ⟨hne, hall⟩ := Bool.and_eq_true_iff.mp hname
  have hplain : ∀ c ∈ name.toList, (!isGap c) = true := List.all_eq_true.mp hall
  have hrest : Text.Starts (fun c => (!isGap c) = false) rest := h.imp fun c hc => by rw [hc]; rfl
  rw [readName, dropWhile_blank_append hname]
  simp only [Text.takeWhile_append_of_starts hplain hrest,
    Text.dropWhile_append_of_starts hplain hrest, String.ofList_toList]
  exact if_neg (by simpa using hne)

/-- A name is none of the marks. -/
theorem mark?_name {mark name : String} (hname : isPlain name)
    (hmark : mark.toList.head?.any isGap) (rest : List Char) :
    mark? mark (name.toList ++ rest) = none := by
  rw [mark?, dropWhile_blank_append hname]
  obtain ⟨c, more, htext, hc⟩ := starts_of_isPlain hname
  cases hhead : mark.toList with
  | nil => simp [hhead] at hmark
  | cons d others =>
    rw [hhead, List.head?_cons, Option.any_some] at hmark
    have hne : d ≠ c := by
      rintro rfl
      rw [hmark] at hc
      cases hc
    rw [htext]
    exact Text.after?_of_ne hne [] others _

/-! ## Texts that are read as a type wherever they stand -/

/-- A text that is read as a type in front of what may follow a type. -/
def IsType (text : List Char) (t : TypeTerm) : Prop :=
  ∀ fuel rest, 3 * text.length + 1 ≤ fuel → GoesOn [',', '>', ')', ';'] rest →
    readTypeWithin fuel (text ++ rest) = some (t, rest)

/-- A text that is read as one alternative, also in front of a bar. -/
structure IsAlternative (text : List Char) (t : TypeTerm) : Prop where
  starts : ∀ rest, mark? "(..." (text ++ rest) = none
  read : ∀ fuel rest, 3 * text.length ≤ fuel → GoesOn ['|', ',', '>', ')', ';'] rest →
    readAlternative fuel (text ++ rest) = some (t, rest)

theorem GoesOn.mono {more : List Char} (h : GoesOn marks rest) (hmarks : marks ⊆ more) :
    GoesOn more rest :=
  Text.Starts.imp (fun _ hc => hmarks hc) h

variable {text other : List Char} {s t : TypeTerm}

theorem IsType.readType_append (h : IsType text t) (hrest : GoesOn [',', '>', ')', ';'] rest) :
    readType (text ++ rest) = some (t, rest) := by
  refine h _ _ ?_ hrest
  rw [List.length_append]
  omega

theorem readBrackets_of_goesOn (t : TypeTerm) (h : GoesOn ['|', ',', '>', ')', ';'] rest) :
    readBrackets t rest = (t, rest) := by
  rw [readBrackets]
  rintro more rfl
  obtain ⟨c, _, htext, hc⟩ := h
  rw [← (List.cons.inj htext).1] at hc
  exact absurd hc (by decide)

theorem length_pos_of_isPlain {name : String} (hname : isPlain name) : 0 < name.toList.length := by
  obtain ⟨c, more, htext, -⟩ := starts_of_isPlain hname
  rw [htext]
  exact Nat.succ_pos _

theorem isAlternative_name {name : String} (hname : isPlain name) :
    IsAlternative name.toList (.word name) where
  starts := mark?_name hname (by decide)
  read fuel rest hfuel hrest := by
    have hlength := length_pos_of_isPlain hname
    obtain ⟨fuel, rfl⟩ : ∃ less, fuel = less + 1 := Nat.exists_eq_add_one_of_ne_zero (by omega)
    have hopen : mark? "<" rest = none := mark?_eq_none hrest (by decide)
    rw [readAlternative, mark?_name hname (by decide),
      readName_append hname (hrest.starts (by decide))]
    simp only [Option.bind_eq_bind, Option.bind_some, hopen, readBrackets_of_goesOn _ hrest]
    rfl

theorem IsAlternative.length_pos (h : IsAlternative text t) : 0 < text.length := by
  refine Nat.pos_of_ne_zero fun hzero => ?_
  have hnone : readAlternative 0 (text ++ [';']) = some (t, [';']) :=
    h.read 0 [';'] (by omega) (goesOn_cons (by decide) (by decide) [])
  cases hnone

/-- A text that is read as arguments in front of the closing bracket. -/
def AreArguments (text : List Char) (ts : List TypeTerm) : Prop :=
  ∀ fuel rest, 3 * text.length + 2 ≤ fuel →
    readArguments fuel (text ++ '>' :: rest) = some (ts, rest)

theorem isAlternative_applied {name : String} (hname : isPlain name) {ts : List TypeTerm}
    (h : AreArguments text ts) :
    IsAlternative (name.toList ++ '<' :: (text ++ ['>'])) (.applied name ts) where
  starts rest := by
    rw [List.append_assoc]
    exact mark?_name hname (by decide) _
  read fuel rest hfuel hrest := by
    simp only [List.length_append, List.length_cons, List.length_nil] at hfuel
    obtain ⟨fuel, rfl⟩ : ∃ less, fuel = less + 1 := Nat.exists_eq_add_one_of_ne_zero (by omega)
    have htext : name.toList ++ '<' :: (text ++ ['>']) ++ rest =
        name.toList ++ '<' :: (text ++ '>' :: rest) := by simp
    have hopen : mark? "<" ('<' :: (text ++ '>' :: rest)) = some (text ++ '>' :: rest) := rfl
    rw [htext, readAlternative, mark?_name hname (by decide), readName_append hname ⟨'<', _, rfl, rfl⟩]
    simp only [Option.bind_eq_bind, Option.bind_some, hopen, h fuel rest (by omega),
      readBrackets_of_goesOn _ hrest]
    rfl

theorem areArguments_one (h : IsType text t) : AreArguments text [t] := by
  intro fuel rest hfuel
  obtain ⟨fuel, rfl⟩ : ∃ less, fuel = less + 1 := Nat.exists_eq_add_one_of_ne_zero (by omega)
  have hcomma : mark? "," ('>' :: rest) = none := rfl
  have hclose : mark? ">" ('>' :: rest) = some rest := rfl
  rw [readArguments, h fuel _ (by omega) (goesOn_cons (by decide) (by decide) rest)]
  simp only [Option.bind_eq_bind, Option.bind_some, hcomma, hclose]
  rfl

theorem areArguments_two (h : IsType text s) (hother : IsType other t) :
    AreArguments (text ++ ',' :: other) [s, t] := by
  intro fuel rest hfuel
  rw [List.length_append, List.length_cons] at hfuel
  obtain ⟨fuel, rfl⟩ : ∃ less, fuel = less + 1 := Nat.exists_eq_add_one_of_ne_zero (by omega)
  have hcomma : mark? "," (',' :: (other ++ '>' :: rest)) = some (other ++ '>' :: rest) := rfl
  rw [List.append_assoc, List.cons_append, readArguments,
    h fuel _ (by omega) (goesOn_cons (by decide) (by decide) _)]
  simp only [Option.bind_eq_bind, Option.bind_some, hcomma,
    areArguments_one hother fuel rest (by omega)]
  rfl

theorem isAlternative_parens (h : IsType text t) (hstarts : Text.Starts (· ≠ '.') text) :
    IsAlternative ('(' :: (text ++ [')'])) t where
  starts rest := by
    obtain ⟨c, more, rfl, hc⟩ := hstarts
    exact Text.after?_of_ne hc.symm ['('] "..".toList _
  read fuel rest hfuel hrest := by
    simp only [List.length_append, List.length_cons, List.length_nil] at hfuel
    obtain ⟨fuel, rfl⟩ : ∃ less, fuel = less + 1 := Nat.exists_eq_add_one_of_ne_zero (by omega)
    have htext : '(' :: (text ++ [')']) ++ rest = '(' :: (text ++ ')' :: rest) := by simp
    have hopen : mark? "(" ('(' :: (text ++ ')' :: rest)) = some (text ++ ')' :: rest) := rfl
    have hclose : mark? ")" (')' :: rest) = some rest := rfl
    have hinner : readTypeWithin fuel (text ++ ')' :: rest) = some (t, ')' :: rest) :=
      h fuel _ (by omega) (goesOn_cons (by decide) (by decide) rest)
    rw [htext, readAlternative, hopen]
    simp only [hinner, Option.bind_eq_bind, Option.bind_some, hclose,
      readBrackets_of_goesOn t hrest]
    rfl

theorem isAlternative_brackets {name : String} (hname : isPlain name) :
    IsAlternative (name.toList ++ ['[', ']']) (.array (.word name)) where
  starts rest := by
    rw [List.append_assoc]
    exact mark?_name hname (by decide) _
  read fuel rest hfuel hrest := by
    rw [List.length_append, List.length_cons] at hfuel
    obtain ⟨fuel, rfl⟩ : ∃ less, fuel = less + 1 := Nat.exists_eq_add_one_of_ne_zero (by omega)
    have hopen : mark? "<" ('[' :: ']' :: rest) = none := rfl
    have htext : name.toList ++ ['[', ']'] ++ rest = name.toList ++ '[' :: ']' :: rest := by simp
    have hbrackets : readBrackets (.word name) ('[' :: ']' :: rest) = (.array (.word name), rest) :=
      readBrackets_of_goesOn _ hrest
    rw [htext, readAlternative, mark?_name hname (by decide), readName_append hname ⟨'[', _, rfl, rfl⟩]
    simp only [Option.bind_eq_bind, Option.bind_some, hopen, hbrackets]
    rfl

theorem readAlternative_blank (fuel : Nat) (text : List Char) :
    readAlternative fuel (' ' :: text) = readAlternative fuel text := by
  cases fuel with
  | zero => rfl
  | succ fuel =>
    rw [readAlternative, readAlternative]
    rfl

theorem readTypeWithin_blank (fuel : Nat) (text : List Char) :
    readTypeWithin fuel (' ' :: text) = readTypeWithin fuel text := by
  cases fuel with
  | zero => rfl
  | succ fuel => rw [readTypeWithin, readTypeWithin, mark?_blank, readAlternative_blank]

theorem IsType.blank (h : IsType text t) : IsType (' ' :: text) t := by
  intro fuel rest hfuel hrest
  rw [List.length_cons] at hfuel
  rw [List.cons_append, readTypeWithin_blank]
  exact h fuel rest (by omega) hrest

/-! ## Rows of alternatives -/

/-- Texts with a bar in front of each. -/
def bars (texts : List (List Char)) : List Char := texts.flatMap (" | ".toList ++ ·)

theorem bars_cons (first : List Char) (others : List (List Char)) :
    bars (first :: others) = " | ".toList ++ (first ++ bars others) := by
  rw [bars, List.flatMap_cons, List.append_assoc]
  rfl

/-- Texts of alternatives with bars between them. -/
inductive IsRow : List Char → List TypeTerm → Prop
  | intro {first : List Char} {others : List (List Char)} {t : TypeTerm} {ts : List TypeTerm} :
    IsAlternative first t → List.Forall₂ IsAlternative others ts →
    IsRow (first ++ bars others) (t :: ts)

theorem goesOn_bars (others : List (List Char)) (h : GoesOn [',', '>', ')', ';'] rest) :
    GoesOn ['|', ',', '>', ')', ';'] (bars others ++ rest) := by
  cases others with
  | nil => exact h.mono (by simp)
  | cons other others => exact ⟨'|', _, rfl, by decide⟩

theorem readAlternatives_bars {texts : List (List Char)} {ts : List TypeTerm}
    (h : List.Forall₂ IsAlternative texts ts) (hrest : GoesOn [',', '>', ')', ';'] rest) {fuel : Nat}
    (hfuel : 3 * (bars texts).length + 1 ≤ fuel) :
    readAlternatives fuel (bars texts ++ rest) = some (ts, rest) := by
  induction h generalizing fuel with
  | nil =>
    obtain ⟨fuel, rfl⟩ : ∃ less, fuel = less + 1 := Nat.exists_eq_add_one_of_ne_zero (by omega)
    have hbar : mark? "|" (bars [] ++ rest) = none := mark?_eq_none hrest (by decide)
    rw [readAlternatives, hbar]
    rfl
  | @cons first t texts ts hfirst _ ih =>
    have hmark : " | ".toList.length = 3 := rfl
    rw [bars_cons, List.length_append, List.length_append, hmark] at hfuel
    obtain ⟨fuel, rfl⟩ : ∃ less, fuel = less + 1 := Nat.exists_eq_add_one_of_ne_zero (by omega)
    have hbar : mark? "|" (" | ".toList ++ (first ++ (bars texts ++ rest))) =
        some (' ' :: (first ++ (bars texts ++ rest))) := rfl
    rw [bars_cons, List.append_assoc, List.append_assoc, readAlternatives, hbar]
    simp only [readAlternative_blank, hfirst.read fuel _ (by omega) (goesOn_bars texts hrest),
      ih (show 3 * (bars texts).length + 1 ≤ fuel by omega), Option.bind_eq_bind, Option.bind_some]
    rfl

theorem IsRow.isType {ts : List TypeTerm} (h : IsRow text ts) :
    IsType text (.ofAlternatives ts) := by
  obtain @⟨first, others, t, ts, hfirst, hothers⟩ := h
  intro fuel rest hfuel hrest
  rw [List.length_append] at hfuel
  obtain ⟨fuel, rfl⟩ : ∃ less, fuel = less + 1 := Nat.exists_eq_add_one_of_ne_zero (by omega)
  have hne := hfirst.length_pos
  rw [List.append_assoc, readTypeWithin, hfirst.starts]
  simp only [hfirst.read fuel _ (by omega) (goesOn_bars others hrest),
    readAlternatives_bars hothers hrest (show 3 * (bars others).length + 1 ≤ fuel by omega),
    Option.bind_eq_bind, Option.bind_some]
  rfl

theorem IsAlternative.isRow (h : IsAlternative text t) : IsRow text [t] := by
  have hrow : IsRow (text ++ bars []) [t] := .intro h .nil
  rwa [bars, List.flatMap_nil, List.append_nil] at hrow

theorem IsAlternative.isType (h : IsAlternative text t) : IsType text t := h.isRow.isType

theorem IsRow.ne_nil {ts : List TypeTerm} (h : IsRow text ts) : ts ≠ [] := by
  cases h
  exact List.cons_ne_nil _ _

theorem IsRow.isAlternative (h : IsRow text [t]) : IsAlternative text t := by
  cases h with
  | intro hfirst hothers =>
    cases hothers
    rwa [bars, List.flatMap_nil, List.append_nil]

theorem IsRow.concat {ts : List TypeTerm} (h : IsRow text ts) (hother : IsAlternative other t) :
    IsRow (text ++ (" | ".toList ++ other)) (ts ++ [t]) := by
  obtain @⟨first, others, s, ts, hfirst, hothers⟩ := h
  have htext : first ++ bars others ++ (" | ".toList ++ other) = first ++ bars (others ++ [other]) := by
    simp [bars]
  rw [htext, List.cons_append]
  exact .intro hfirst (List.rel_append hothers (.cons hother .nil))

/-- All of what stands behind the arrow is the result. -/
theorem IsType.function (h : IsType text t) :
    IsType ("(...args: unknown[]) => ".toList ++ text) (.function (.array (.word "unknown")) t) := by
  intro fuel rest hfuel hrest
  have hmark : "(...args: unknown[]) => ".toList.length = 24 := rfl
  have hbrackets : (' ' :: ("unknown".toList ++ ['[', ']'])).length = 10 := rfl
  rw [List.length_append, hmark] at hfuel
  obtain ⟨fuel, rfl⟩ : ∃ less, fuel = less + 1 := Nat.exists_eq_add_one_of_ne_zero (by omega)
  have hopen : mark? "(..." ("(...args: unknown[]) => ".toList ++ (text ++ rest)) =
      some ("args: unknown[]) => ".toList ++ (text ++ rest)) := rfl
  have hname : readName ("args: unknown[]) => ".toList ++ (text ++ rest)) =
      some ("args", ": unknown[]) => ".toList ++ (text ++ rest)) :=
    readName_append (by decide : isPlain "args") ⟨':', _, rfl, rfl⟩
  have hcolon : mark? ":" (": unknown[]) => ".toList ++ (text ++ rest)) =
      some (" unknown[]) => ".toList ++ (text ++ rest)) := rfl
  have harguments : readTypeWithin fuel (" unknown[]) => ".toList ++ (text ++ rest)) =
      some (.array (.word "unknown"), ") => ".toList ++ (text ++ rest)) :=
    (isAlternative_brackets (by decide : isPlain "unknown")).isType.blank fuel _ (by omega)
      ⟨')', _, rfl, by decide⟩
  have hclose : mark? ")" (") => ".toList ++ (text ++ rest)) = some (" => ".toList ++ (text ++ rest)) := rfl
  have harrow : mark? "=>" (" => ".toList ++ (text ++ rest)) = some (' ' :: (text ++ rest)) := rfl
  rw [List.append_assoc, readTypeWithin, hopen]
  simp only [hname, hcolon, harguments, hclose, harrow, readTypeWithin_blank,
    h fuel rest (by omega) hrest, Option.bind_eq_bind, Option.bind_some]
  rfl

theorem toList_intercalate_bars (first : String) (others : List String) :
    (" | ".intercalate (first :: others)).toList =
      first.toList ++ bars (others.map String.toList) := by
  induction others generalizing first with
  | nil => simp [bars]
  | cons other others ih =>
    rw [String.intercalate_cons_cons, String.toList_append, String.toList_append, ih]
    simp [bars]

theorem isRow_intercalate {texts : List String} {ts : List TypeTerm} (hne : texts ≠ [])
    (h : List.Forall₂ (fun text t => IsAlternative text.toList t) texts ts) :
    IsRow (" | ".intercalate texts).toList ts := by
  cases h with
  | nil => exact absurd rfl hne
  | cons hfirst hothers =>
    rw [toList_intercalate_bars]
    exact .intro hfirst (List.forall₂_map_left_iff.mpr hothers)

/-! ## Types of fields -/

/-- The text of a type among others. -/
def PropertyType.memberText (t : PropertyType) : String :=
  if t.isOpen then "(" ++ t.text ++ ")" else t.text

theorem PropertyType.memberTexts_eq (ts : List PropertyType) : memberTexts ts = ts.map memberText := by
  induction ts with
  | nil => rfl
  | cons t ts ih =>
    rw [memberTexts, ih]
    rfl

theorem PropertyType.text_function : function.text = "(...args: unknown[]) => unknown" := rfl

theorem PropertyType.text_array (t : PropertyType) : (array t).text = "Array<" ++ t.text ++ ">" := rfl

theorem PropertyType.text_record (t : PropertyType) :
    (record t).text = "Record<string, " ++ t.text ++ ">" := rfl

theorem PropertyType.text_union (ts : List PropertyType) :
    (union ts).text = " | ".intercalate (ts.map memberText) := by
  rw [← memberTexts_eq]
  rfl

theorem PropertyType.ofTypes_eq (names : TypeNames) (ts : List TypeExpr) :
    ofTypes names ts = ts.map (ofType names) := by
  induction ts with
  | nil => rfl
  | cons t ts ih => rw [ofTypes, ih, List.map_cons]

theorem TypeTerm.ofTypes_eq (names : TypeNames) (ts : List TypeExpr) :
    ofTypes names ts = ts.map (ofType names) := by
  induction ts with
  | nil => rfl
  | cons t ts ih => rw [ofTypes, ih, List.map_cons]

/-- How the printed texts of a type are read. -/
structure ReadsAs (printed : PropertyType) (t : TypeTerm) : Prop where
  type : IsType printed.text.toList t
  /-- Functions need parentheses in front of a bar. -/
  row : printed.isOpen = false → IsRow printed.text.toList t.alternatives

theorem readsAs_of_isAlternative {printed : PropertyType} (h : IsAlternative printed.text.toList t)
    (ht : t.alternatives = [t]) : ReadsAs printed t where
  type := h.isType
  row _ := by
    rw [ht]
    exact h.isRow

theorem readsAs_word {printed : PropertyType} {name : String} (htext : printed.text = name) (hname : isPlain name) :
    ReadsAs printed (.word name) := by
  refine readsAs_of_isAlternative ?_ rfl
  rw [htext]
  exact isAlternative_name hname

theorem readsAs_array {printed : PropertyType} (h : ReadsAs printed t) :
    ReadsAs (.array printed) (.applied "Array" [t]) := by
  refine readsAs_of_isAlternative ?_ rfl
  have htext : (PropertyType.array printed).text.toList =
      "Array".toList ++ '<' :: (printed.text.toList ++ ['>']) := by
    simp [PropertyType.text_array]
  rw [htext]
  exact isAlternative_applied (by decide) (areArguments_one h.type)

theorem readsAs_record {printed : PropertyType} (h : ReadsAs printed t) :
    ReadsAs (.record printed) (.applied "Record" [.word "string", t]) := by
  refine readsAs_of_isAlternative ?_ rfl
  have htext : (PropertyType.record printed).text.toList =
      "Record".toList ++ '<' :: (("string".toList ++ ',' :: (' ' :: printed.text.toList)) ++ ['>']) := by
    simp [PropertyType.text_record]
  have hkey : IsType "string".toList (.word "string") := (isAlternative_name (by decide)).isType
  rw [htext]
  exact isAlternative_applied (by decide) (areArguments_two hkey h.type.blank)

theorem readsAs_function : ReadsAs .function (.ofScalar .callable) where
  type := by
    have hresult : IsType "unknown".toList (.word "unknown") := (isAlternative_name (by decide)).isType
    have htext : PropertyType.function.text.toList =
        "(...args: unknown[]) => ".toList ++ "unknown".toList := by
      rw [PropertyType.text_function]
      decide
    rw [htext]
    exact hresult.function
  row hopen := by cases hopen

variable {names : TypeNames}

theorem readsAs_scalar (kind : ScalarKind) : ReadsAs (.ofScalar kind) (.ofScalar kind) := by
  have hunknown : ReadsAs .unknown (.word "unknown") := readsAs_word rfl (by decide)
  cases kind with
  | callable => exact readsAs_function
  | object => exact readsAs_record hunknown
  | iterable =>
    refine readsAs_of_isAlternative ?_ rfl
    exact isAlternative_applied (by decide : isPlain "Iterable") (areArguments_one hunknown.type)
  | mixed | resource => exact hunknown
  | _ => exact readsAs_word rfl (by decide)

theorem TypeTerm.alternatives_ofType {t : TypeExpr} (h : t.isUnion = false) :
    (ofType names t).alternatives = [ofType names t] := by
  cases t with
  | union members => cases h
  | scalar kind => cases kind <;> rfl
  | _ => rfl

theorem TypeTerm.ofAlternatives_of_several {ts : List TypeTerm} (h : 2 ≤ ts.length) :
    ofAlternatives ts = union ts := by
  unfold ofAlternatives
  split
  · simp at h
  · rfl

theorem TypeTerm.ofAlternatives_concat {ts : List TypeTerm} (hne : ts ≠ []) (t : TypeTerm) :
    ofAlternatives (ts ++ [t]) = union (ts ++ [t]) := by
  have hlength := List.length_pos_of_ne_nil hne
  refine ofAlternatives_of_several ?_
  rw [List.length_append, List.length_singleton]
  omega

/-- A type that is no union is one alternative, in parentheses if it is a function. -/
theorem isAlternative_memberText {t : TypeExpr} (hsingle : t.isUnion = false)
    (h : ReadsAs (.ofType names t) (.ofType names t)) :
    IsAlternative (PropertyType.memberText (.ofType names t)).toList (.ofType names t) := by
  unfold PropertyType.memberText
  split
  next hopen =>
    have hfunction : PropertyType.ofType names t = .function := by
      cases hprinted : PropertyType.ofType names t <;> simp_all [PropertyType.isOpen]
    have htext (text : String) : ("(" ++ text ++ ")").toList = '(' :: (text.toList ++ [')']) := by
      simp
    rw [htext]
    refine isAlternative_parens h.type ?_
    rw [hfunction]
    exact ⟨'(', _, rfl, by decide⟩
  next hclosed =>
    have hrow := h.row (by simpa using hclosed)
    rw [TypeTerm.alternatives_ofType hsingle] at hrow
    exact hrow.isAlternative

/-- Whatever is nested in what, the text of a type is read as that type. -/
theorem readsAs_ofType (hnames : ∀ word ∈ typeWords names, Naming.isTypeName word.toList)
    {t : TypeExpr} (h : t.Readable) : ReadsAs (.ofType names t) (.ofType names t) := by
  induction h with
  | scalar kind => exact readsAs_scalar kind
  | @definition name _ =>
    exact readsAs_word (text_definition names name) (isPlain_typeName hnames (by decide) name)
  | external => exact readsAs_word rfl (by decide)
  | list _ ih => exact readsAs_array ih
  | map _ ih => exact readsAs_record ih
  | @union members _ hsingle _ hseveral ih =>
    have hne : members ≠ [] := by
      rintro rfl
      cases hseveral
    have hrow : IsRow (PropertyType.ofType names (.union members)).text.toList
        (TypeTerm.ofType names (.union members)).alternatives := by
      rw [PropertyType.ofType, PropertyType.text_union, PropertyType.ofTypes_eq, TypeTerm.ofType,
        TypeTerm.ofTypes_eq, List.map_map]
      refine isRow_intercalate (by simpa using hne) ?_
      rw [TypeTerm.alternatives, List.forall₂_map_left_iff, List.forall₂_map_right_iff,
        List.forall₂_same]
      intro member hmember
      exact isAlternative_memberText (hsingle member hmember) (ih member hmember)
    have hunion : TypeTerm.ofAlternatives (TypeTerm.ofType names (.union members)).alternatives =
        TypeTerm.ofType names (.union members) := by
      refine TypeTerm.ofAlternatives_of_several ?_
      rwa [TypeTerm.ofType, TypeTerm.ofTypes_eq, TypeTerm.alternatives, List.length_map]
    exact ⟨hunion ▸ hrow.isType, fun _ => hrow⟩

/-! ## Members -/

theorem isOpen_ofType_iff {t : TypeExpr} :
    (PropertyType.ofType names t).isOpen ↔ t = .scalar .callable := by
  cases t with
  | scalar kind => cases kind <;> simp [PropertyType.ofType, PropertyType.ofScalar, PropertyType.isOpen]
  | definition name =>
    rw [PropertyType.ofType, PropertyType.ofName]
    cases names.lookup name <;> simp [PropertyType.isOpen]
  | _ => simp [PropertyType.ofType, PropertyType.isOpen]

theorem typeText_ofField (names : TypeNames) (immutable : Bool) (f : FieldView) :
    (Property.ofField names immutable f).typeText =
      (PropertyType.ofType names f.type).text ++ if f.nullable then " | null" else "" := rfl

/-- Null behind the text of a type is one more alternative, unless the text is that of a function. -/
theorem isType_typeText (hnames : ∀ word ∈ typeWords names, Naming.isTypeName word.toList)
    {f : FieldView} (hreadable : f.type.Readable)
    (hclosed : ¬ (f.type = .scalar .callable ∧ f.nullable)) (immutable : Bool) :
    IsType (Property.ofField names immutable f).typeText.toList (.ofField names f) := by
  have hreads := readsAs_ofType hnames hreadable
  rw [typeText_ofField, TypeTerm.ofField]
  split
  next hnullable =>
    have hopen : (PropertyType.ofType names f.type).isOpen = false := by
      rw [← Bool.not_eq_true, isOpen_ofType_iff]
      exact fun hcallable => hclosed ⟨hcallable, hnullable⟩
    have hrow := hreads.row hopen
    have hnull := hrow.concat (isAlternative_name (by decide : isPlain "null"))
    rw [TypeTerm.orNull, ← TypeTerm.ofAlternatives_concat hrow.ne_nil, String.toList_append]
    exact hnull.isType
  · rw [String.append_empty]
    exact hreads.type

/-- Null behind the text of a function is an alternative to its result. -/
theorem isType_typeText_callable {f : FieldView} (hcallable : f.type = .scalar .callable)
    (hnullable : f.nullable) (immutable : Bool) :
    IsType (Property.ofField names immutable f).typeText.toList
      (.function (.array (.word "unknown")) (.union [.word "unknown", .word "null"])) := by
  have hrow : IsRow "unknown".toList [.word "unknown"] := (isAlternative_name (by decide)).isRow
  have hresult := (hrow.concat (isAlternative_name (by decide : isPlain "null"))).isType
  have htext : (Property.ofField names immutable f).typeText.toList =
      "(...args: unknown[]) => ".toList ++ ("unknown".toList ++ (" | ".toList ++ "null".toList)) := by
    rw [typeText_ofField, hcallable, hnullable, PropertyType.ofType, PropertyType.ofScalar,
      PropertyType.text_function]
    decide
  rw [htext]
  exact hresult.function

theorem interfaceName_ne_null (hnames : ∀ word ∈ typeWords names, Naming.isTypeName word.toList)
    (name : String) : interfaceName names name ≠ "null" := by
  rw [interfaceName]
  intro hnull
  cases hlookup : names.lookup name with
  | none =>
    rw [hlookup] at hnull
    exact absurd hnull (by decide)
  | some word =>
    rw [hlookup, Option.getD_some] at hnull
    have hword := hnames word (List.mem_map_of_mem (mem_of_lookup hlookup))
    rw [hnull] at hword
    exact absurd hword (by decide)

/-- Null is no type of a field. -/
theorem null_not_mem_alternatives
    (hnames : ∀ word ∈ typeWords names, Naming.isTypeName word.toList) (t : TypeExpr) :
    .word "null" ∉ (TypeTerm.ofType names t).alternatives := by
  have hne (t : TypeExpr) : .word "null" ≠ TypeTerm.ofType names t := by
    cases t with
    | scalar kind => cases kind <;> simp [TypeTerm.ofType, TypeTerm.ofScalar]
    | definition name =>
      rw [TypeTerm.ofType]
      exact fun hsame => interfaceName_ne_null hnames name (TypeTerm.applied.inj hsame).1.symm
    | _ => simp [TypeTerm.ofType]
  cases t with
  | union members =>
    rw [TypeTerm.ofType, TypeTerm.ofTypes_eq]
    intro hmem
    obtain ⟨member, -, hnull⟩ := List.mem_map.mp hmem
    exact hne member hnull.symm
  | _ =>
    rw [TypeTerm.alternatives_ofType rfl, List.mem_singleton]
    exact hne _

theorem null_mem_alternatives_iff
    (hnames : ∀ word ∈ typeWords names, Naming.isTypeName word.toList) (f : FieldView) :
    .word "null" ∈ (TypeTerm.ofField names f).alternatives ↔ f.nullable := by
  have hnull := null_not_mem_alternatives hnames f.type
  rw [TypeTerm.ofField]
  split
  next hnullable => simp [TypeTerm.orNull, TypeTerm.alternatives, hnullable]
  next hnullable => simp [hnull, hnullable]

variable {r : Registry} {s : ResolvedSet}

theorem readable_of_mem (h : r.Obtained) (hs : resolve r = .ok s) {d : DefinitionView}
    (hd : d ∈ (ViewModel.ofResolved s).definitions) {f : FieldView} (hf : f ∈ d.fields) :
    f.type.Readable := by
  obtain ⟨e, he, rfl⟩ := List.mem_map.mp hd
  obtain ⟨flat, hflat, rfl⟩ := List.mem_map.mp hf
  have hfields : ∀ e ∈ s.toList, ∀ flat ∈ e.fields.toList, flat.field.Canonical :=
    (Record.forall_flatFields_iff hs).mpr fun d hd => (h.canonical d hd).fields
  exact Field.readable_containerType (hfields e he flat hflat).readable

/-- What stands between the name of a printed member and its semicolon is read as the type of the
field, as a union with null if and only if the field allows null. The only exceptions are fields of
functions that allow null: they are read as functions whose result may be null. -/
theorem readType_typeText (h : r.Obtained) (hs : resolve r = .ok s) {d : DefinitionView}
    (hd : d ∈ (ViewModel.ofResolved s).definitions) {f : FieldView} (hf : f ∈ d.fields) :
    let names := Target.typescript.typeNames (.ofResolved s)
    let p := Property.ofField names d.immutable f
    (f ∈ Target.typescript.listed d → Within p.text (write (.ofResolved s))) ∧
    p.text = p.beginning ++ ": " ++ p.typeText ++ ";\n" ∧
      ∃ t : TypeTerm,
        (∀ rest, readType (p.typeText.toList ++ ';' :: rest) = some (t, ';' :: rest)) ∧
        (t = .ofField names f ↔ ¬ (f.type = .scalar .callable ∧ f.nullable)) ∧
        (.word "null" ∈ t.alternatives ↔ f.nullable ∧ f.type ≠ .scalar .callable) ∧
        (f.type = .scalar .callable → f.nullable →
          t = .function (.array (.word "unknown")) (.union [.word "unknown", .word "null"])) := by
  intro names p
  have hprinted (hlisted : f ∈ Target.typescript.listed d) : Within p.text (write (.ofResolved s)) := by
    have hp : p ∈ (Interface.ofDefinition names d).members := List.mem_map_of_mem hlisted
    exact (Interface.within_member hp).trans (within_write (List.mem_map_of_mem hd))
  refine ⟨hprinted, p.text_eq, ?_⟩
  have hnames := Target.isTypeName_typeNames (ViewModel.closed_of_resolve hs) .typescript
  have hends (rest : List Char) : GoesOn [',', '>', ')', ';'] (';' :: rest) :=
    goesOn_cons (by decide) (by decide) rest
  by_cases hopen : f.type = .scalar .callable ∧ f.nullable
  · obtain ⟨hcallable, hnullable⟩ := hopen
    refine ⟨_, fun rest => (isType_typeText_callable hcallable hnullable _).readType_append (hends rest),
      ?_, ?_, ?_⟩
    · rw [TypeTerm.ofField, if_pos hnullable, TypeTerm.orNull]
      simp [hcallable, hnullable]
    · simp [hcallable, TypeTerm.alternatives]
    · exact fun _ _ => rfl
  · refine ⟨_, fun rest =>
      (isType_typeText hnames (readable_of_mem h hs hd hf) hopen _).readType_append (hends rest),
      ?_, ?_, ?_⟩
    · exact iff_of_true rfl hopen
    · rw [null_mem_alternatives_iff hnames]
      exact ⟨fun hnullable => ⟨hnullable, fun hcallable => hopen ⟨hcallable, hnullable⟩⟩, And.left⟩
    · exact fun hcallable hnullable => absurd ⟨hcallable, hnullable⟩ hopen

/-- Functions in a list and by themselves, a definition or null. -/
def jobs : Declarations := Catalogue.ofList
  [("Job", ⟨none, false, Catalogue.ofList [("hook", .ofType "?callable[]|callable|Tag")]⟩),
    ("Tag", ⟨none, false, .empty⟩)]

theorem readType_typeText_jobs : ∃ (r : Registry) (s : ResolvedSet), r.Obtained ∧ resolve r = .ok s ∧
    ∃ d ∈ (ViewModel.ofResolved s).definitions, ∃ f ∈ d.fields,
      (Property.ofField (Target.typescript.typeNames (.ofResolved s)) d.immutable f).typeText =
        "Array<(...args: unknown[]) => unknown> | ((...args: unknown[]) => unknown) | Tag | null" ∧
      ∀ rest, readType (("Array<(...args: unknown[]) => unknown> | " ++
          "((...args: unknown[]) => unknown) | Tag | null").toList ++ ';' :: rest) =
        some (.union [.applied "Array" [.ofScalar .callable], .ofScalar .callable, .word "Tag",
          .word "null"], ';' :: rest) := by
  obtain ⟨v, hv, d, hd, f, hf, htype, hnullable, hname, htext⟩ : ∃ v,
      ViewModel.ofDeclarations jobs = .ok v ∧ ∃ d ∈ v.definitions, ∃ f ∈ d.fields,
        f.type = .union [.list (.scalar .callable), .scalar .callable, .definition "Tag"] ∧
        f.nullable = true ∧ interfaceName (Target.typescript.typeNames v) "Tag" = "Tag" ∧
        (Property.ofField (Target.typescript.typeNames v) d.immutable f).typeText =
          "Array<(...args: unknown[]) => unknown> | ((...args: unknown[]) => unknown) | Tag | null" :=
    exists_ok_of_decide (by decide +kernel)
  obtain ⟨r, hr, hview⟩ := bind_eq_ok_iff.mp hv
  obtain ⟨s, hs, hv⟩ := bind_eq_ok_iff.mp hview
  cases hv
  obtain ⟨-, -, t, hread, hiff, -⟩ := readType_typeText (.loaded hr) hs hd hf
  have hsound : ¬ (f.type = .scalar .callable ∧ f.nullable) := by simp [htype]
  have hterm : t = .union [.applied "Array" [.ofScalar .callable], .ofScalar .callable, .word "Tag",
      .word "null"] := by
    rw [hiff.mpr hsound, TypeTerm.ofField, if_pos hnullable, htype]
    simp only [TypeTerm.ofType, TypeTerm.ofTypes, hname]
    rfl
  refine ⟨r, s, .loaded hr, hs, d, hd, f, hf, htext, fun rest => ?_⟩
  have hrest := hread rest
  rw [htext, hterm] at hrest
  exact hrest

/-- A function or null. -/
def nullableHook : Declarations := Catalogue.ofList
  [("Job", ⟨none, false, Catalogue.ofList [("hook", .ofType "?callable")]⟩)]

/-- The type is read as that of functions whose result may be null, and not as a union with null. -/
theorem readType_nullableHook : ∃ (r : Registry) (s : ResolvedSet), r.Obtained ∧ resolve r = .ok s ∧
    ∃ d ∈ (ViewModel.ofResolved s).definitions, ∃ f ∈ d.fields, f.nullable ∧
      (Property.ofField (Target.typescript.typeNames (.ofResolved s)) d.immutable f).typeText =
        "(...args: unknown[]) => unknown | null" ∧
      ∀ rest, ∃ t, t ≠ .ofField (Target.typescript.typeNames (.ofResolved s)) f ∧
        .word "null" ∉ t.alternatives ∧
        readType ("(...args: unknown[]) => unknown | null".toList ++ ';' :: rest) =
          some (t, ';' :: rest) := by
  obtain ⟨v, hv, d, hd, f, hf, htype, hnullable, htext⟩ : ∃ v,
      ViewModel.ofDeclarations nullableHook = .ok v ∧ ∃ d ∈ v.definitions, ∃ f ∈ d.fields,
        f.type = .scalar .callable ∧ f.nullable = true ∧
        (Property.ofField (Target.typescript.typeNames v) d.immutable f).typeText =
          "(...args: unknown[]) => unknown | null" :=
    exists_ok_of_decide (by decide +kernel)
  obtain ⟨r, hr, hview⟩ := bind_eq_ok_iff.mp hv
  obtain ⟨s, hs, hv⟩ := bind_eq_ok_iff.mp hview
  cases hv
  refine ⟨r, s, .loaded hr, hs, d, hd, f, hf, hnullable, htext, fun rest => ?_⟩
  refine ⟨.function (.array (.word "unknown")) (.union [.word "unknown", .word "null"]), ?_, ?_, ?_⟩
  · rw [TypeTerm.ofField, if_pos hnullable, TypeTerm.orNull]
    simp
  · simp [TypeTerm.alternatives]
  · rw [← htext]
    exact (isType_typeText_callable htype hnullable _).readType_append
      (goesOn_cons (by decide) (by decide) rest)

end RecordDefinitions.Interfaces
