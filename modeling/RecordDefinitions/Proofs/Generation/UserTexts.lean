import RecordDefinitions.Proofs.Generation.DataNames
import RecordDefinitions.Proofs.Generation.TypeTexts
import RecordDefinitions.Proofs.Json.Comments

/-!
# Texts of the user in interfaces

A printed interface is read back token by token: block comments up to their first end, names of
members as identifiers or as literals that end in the line they start in, and types up to the
semicolon behind them. Notes, default values and names of fields are texts of the user. The
interface is read as what it was printed from if and only if none of them ends the comment that it
stands in or breaks the line of its literal.
-/

namespace RecordDefinitions.Interfaces

open Generation Text

/-! ## Reader -/

/-- The text without the blanks and line ends that it starts with. -/
def skip (text : List Char) : List Char := text.dropWhile Char.isWhitespace

/-- Whether the text starts with a mark, and the text without it. -/
def passOver (mark text : List Char) : Bool × List Char :=
  match after? mark text with
  | some rest => (true, rest)
  | none => (false, text)

/-- What stands in a comment, up to its end, and what follows it. -/
def readComment : List Char → Option (List Char × List Char)
  | [] => none
  | '*' :: '/' :: rest => some ([], rest)
  | c :: rest => (readComment rest).map fun (text, after) => (c :: text, after)

/-- What stands in the comment in front of a member, if there is one. -/
def readDoc (text : List Char) : Option (Option String × List Char) :=
  match after? "/*".toList text with
  | none => some (none, text)
  | some rest => (readComment rest).map fun (body, rest) => (some (String.ofList body), rest)

/-- The characters that a literal cannot go on behind. -/
def endsLine (c : Char) : Bool := c == '\n' || c == '\r'

/-- The value of a literal on one line, behind its opening quote, and what follows it. -/
def readString (text : List Char) : Option (String × List Char) :=
  match Structs.readLiteral text with
  | none => none
  | some (value, rest) => if value.any endsLine then none else some (String.ofList value, rest)

/-- The characters of identifiers. -/
def isNameChar (c : Char) : Bool := c == '_' || c == '$' || c.isAlphanum

/-- The name of a member, an identifier or a literal, and what follows it. -/
def readKey (text : List Char) : Option (String × List Char) :=
  match after? ['"'] text with
  | some rest => readString rest
  | none =>
    let name := String.ofList (text.takeWhile isNameChar)
    if isIdentifier name then some (name, text.dropWhile isNameChar) else none

/-- What is read of a member. -/
structure MemberEntry where
  /-- What stands in the comment in front of it. -/
  comment : Option String
  readonly : Bool
  name : String
  optional : Bool
  type : String
deriving DecidableEq

/-- A member behind its comment, up to its semicolon, and what follows it. -/
def readLine (comment : Option String) (text : List Char) : Option (MemberEntry × List Char) := do
  let (readonly, rest) := passOver "readonly ".toList text
  let (name, rest) ← readKey rest
  let (optional, rest) := passOver ['?'] rest
  let (type, rest) ← cutFirst ';' (← after? ": ".toList rest)
  return (⟨comment, readonly, name, optional, String.ofList type⟩, rest)

/-- A member with its comment, and what follows it. -/
def readMember (text : List Char) : Option (MemberEntry × List Char) := do
  let (comment, rest) ← readDoc (skip text)
  readLine comment (skip rest)

theorem length_skip_le (text : List Char) : (skip text).length ≤ text.length :=
  (List.dropWhile_sublist _).length_le

theorem length_of_passOver {mark text after : List Char} {passed : Bool}
    (h : passOver mark text = (passed, after)) : after.length ≤ text.length := by
  unfold passOver at h
  split at h
  next hrest =>
    cases h
    exact length_of_after? hrest
  · cases h
    exact Nat.le_refl _

theorem length_of_readComment {text body after : List Char}
    (h : readComment text = some (body, after)) : after.length ≤ text.length := by
  induction text using readComment.induct generalizing body with
  | case1 => cases h
  | case2 rest =>
    cases h
    simp only [List.length_cons]
    omega
  | case3 c rest hopen ih =>
    rw [readComment, Option.map_eq_some_iff] at h
    · obtain ⟨inner, hinner, heq⟩ := h
      cases heq
      exact (ih hinner).trans (Nat.le_succ _)
    · exact hopen

theorem length_of_readDoc {text after : List Char} {doc : Option String}
    (h : readDoc text = some (doc, after)) : after.length ≤ text.length := by
  unfold readDoc at h
  split at h
  · cases h
    exact Nat.le_refl _
  next rest hrest =>
    obtain ⟨⟨body, last⟩, hbody, heq⟩ := Option.map_eq_some_iff.mp h
    cases heq
    exact (length_of_readComment hbody).trans (length_of_after? hrest)

theorem length_of_readString {text after : List Char} {value : String}
    (h : readString text = some (value, after)) : after.length ≤ text.length := by
  unfold readString at h
  split at h
  · cases h
  next hread =>
    split at h
    · cases h
    · cases h
      exact Structs.length_of_readLiteral hread

theorem length_of_readKey {text after : List Char} {name : String}
    (h : readKey text = some (name, after)) : after.length ≤ text.length := by
  unfold readKey at h
  split at h
  next rest hrest => exact (length_of_readString h).trans (length_of_after? hrest)
  · dsimp only at h
    split at h
    · cases h
      exact (List.dropWhile_sublist _).length_le
    · cases h

theorem length_of_readLine {comment : Option String} {text after : List Char} {m : MemberEntry}
    (h : readLine comment text = some (m, after)) : after.length < text.length := by
  rw [readLine] at h
  cases hreadonly : passOver "readonly ".toList text with | mk readonly afterReadonly => ?_
  simp only [hreadonly] at h
  obtain ⟨⟨name, afterName⟩, hname, h⟩ := Option.bind_eq_some_iff.mp h
  cases hoptional : passOver ['?'] afterName with | mk optional afterOptional => ?_
  simp only [hoptional] at h
  obtain ⟨afterColon, hcolon, h⟩ := Option.bind_eq_some_iff.mp h
  obtain ⟨⟨type, afterType⟩, htype, h⟩ := Option.bind_eq_some_iff.mp h
  cases h
  have := length_of_passOver hreadonly
  have := length_of_readKey hname
  have := length_of_passOver hoptional
  have := length_of_after? hcolon
  have : afterType.length < afterColon.length := length_of_cutFirst htype
  dsimp only
  omega

theorem length_of_readMember {text after : List Char} {m : MemberEntry}
    (h : readMember text = some (m, after)) : after.length < text.length := by
  obtain ⟨⟨comment, line⟩, hdoc, hline⟩ := Option.bind_eq_some_iff.mp h
  have := length_skip_le text
  have := length_of_readDoc hdoc
  have := length_skip_le line
  have := length_of_readLine hline
  omega

/-- The members up to the closing brace. -/
def readMembers (text : List Char) : Option (List MemberEntry × List Char) :=
  match after? ['\x7d'] (skip text) with
  | some rest => some ([], rest)
  | none =>
    match _h : readMember text with
    | none => none
    | some (member, rest) =>
      (readMembers rest).map fun (members, rest) => (member :: members, rest)
termination_by text.length
decreasing_by exact length_of_readMember _h

theorem readMembers_eq (text : List Char) : readMembers text =
    match after? ['\x7d'] (skip text) with
    | some rest => some ([], rest)
    | none => (readMember text).bind fun (member, rest) =>
        (readMembers rest).map fun (members, rest) => (member :: members, rest) := by
  rw [readMembers]
  split
  · rfl
  · split
    next hnone =>
      rw [hnone]
      rfl
    next member rest hmember =>
      rw [hmember]
      rfl

/-- A literal, and what follows it. -/
def readQuoted (text : List Char) : Option (String × List Char) :=
  (after? ['"'] (skip text)).bind readString

theorem length_of_readQuoted {text after : List Char} {value : String}
    (h : readQuoted text = some (value, after)) : after.length < text.length := by
  obtain ⟨literal, hliteral, hvalue⟩ := Option.bind_eq_some_iff.mp h
  have hlength := congrArg List.length (after?_eq_some_iff.mp hliteral)
  have := length_skip_le text
  have := length_of_readString hvalue
  rw [List.length_append, List.length_singleton] at hlength
  omega

/-- Literals with bars between them, up to the closing bracket. -/
def readNames (text : List Char) : Option (List String × List Char) :=
  match _h : readQuoted text with
  | none => none
  | some (name, rest) =>
    match _g : after? ['|'] (skip rest) with
    | some others => (readNames others).map fun (names, rest) => (name :: names, rest)
    | none => (after? ['>'] rest).map fun rest => ([name], rest)
termination_by text.length
decreasing_by
  have := length_of_readQuoted _h
  have := length_skip_le rest
  have := length_of_after? _g
  omega

theorem readNames_eq (text : List Char) : readNames text =
    (readQuoted text).bind fun (name, rest) =>
      match after? ['|'] (skip rest) with
      | some others => (readNames others).map fun (names, rest) => (name :: names, rest)
      | none => (after? ['>'] rest).map fun rest => ([name], rest) := by
  rw [readNames]
  split
  next hnone =>
    rw [hnone]
    rfl
  next name rest hname =>
    rw [hname, Option.bind_some]
    split
    next others hothers =>
      dsimp only
      rw [hothers]
    next hnone =>
      dsimp only
      rw [hnone]

/-- What is read of an interface. -/
structure InterfaceEntry where
  name : String
  /-- The parent, and the names that are left out of it. -/
  parent : Option (String × List String)
  members : List MemberEntry
deriving DecidableEq

/-- The parent with the names that are left out of it, if there is one, and what follows it. -/
def readHeritage (text : List Char) : Option (Option (String × List String) × List Char) :=
  match after? " extends Omit<".toList text with
  | some rest => do
    let (parent, rest) ← readName rest
    let (names, rest) ← readNames (← after? [','] rest)
    return (some (parent, names), rest)
  | none =>
    match after? " extends ".toList text with
    | some rest => do
      let (parent, rest) ← readName rest
      return (some (parent, []), rest)
    | none => some (none, text)

/-- An interface and what follows it. -/
def readInterface (text : List Char) : Option (InterfaceEntry × List Char) := do
  let (name, rest) ← readName (← after? "export interface ".toList text)
  let (parent, rest) ← readHeritage rest
  let (members, rest) ← readMembers (← after? ['\x7b'] (skip rest))
  return (⟨name, parent, members⟩, rest)

/-! ## Comments -/

/-- What stands in the comment of some notes. -/
def commentBody : List String → Option String
  | [] => none
  | [note] => some ("* " ++ note ++ " ")
  | notes => some ("*\n" ++ String.join (notes.map fun note => "   * " ++ note ++ "\n") ++ "   ")

theorem toList_comment (notes : List String) :
    (comment notes).toList = ((commentBody notes).map fun body =>
      "  /*".toList ++ (body.toList ++ '*' :: '/' :: ['\n'])).getD [] := by
  match notes with
  | [] => rfl
  | [note] => simp [comment, commentBody]
  | first :: second :: others => simp [comment, commentBody]

theorem commentBody_eq_none_iff {notes : List String} : commentBody notes = none ↔ notes = [] := by
  match notes with
  | [] => simp [commentBody]
  | [note] => simp [commentBody]
  | first :: second :: others => simp [commentBody]

/-- Only notes can end the comment that they stand in. -/
theorem endsComment_commentBody {notes : List String} {body : String}
    (h : commentBody notes = some body) :
    EndsComment body.toList ↔ ∃ note ∈ notes, EndsComment note.toList := by
  have hstar : ¬ EndsComment "*".toList := by decide
  have hlines (notes : List String) :
      EndsComment (String.join (notes.map fun note => "   * " ++ note ++ "\n")).toList ↔
        ∃ note ∈ notes, EndsComment note.toList := by
    induction notes with
    | nil => simp [not_endsComment_nil]
    | cons note notes ih =>
      have htext : (String.join ((note :: notes).map fun note => "   * " ++ note ++ "\n")).toList =
          "   *".toList ++ (" ".toList ++ (note.toList ++ ("\n".toList ++
            (String.join (notes.map fun note => "   * " ++ note ++ "\n")).toList))) := by
        simp
      rw [htext, endsComment_append_gap (by decide) (by decide), or_iff_right (by decide),
        endsComment_append_gap (by decide) (by decide), ih, List.exists_mem_cons_iff]
  match notes with
  | [] => cases h
  | [note] =>
    obtain rfl := Option.some.inj h
    have htext : ("* " ++ note ++ " ").toList = "*".toList ++ (" ".toList ++ (note.toList ++ " ".toList)) := by
      simp
    rw [htext, endsComment_append_gap (by decide) (by decide), or_iff_right hstar,
      endsComment_append_harmless (by decide)]
    simp
  | first :: second :: others =>
    obtain rfl := Option.some.inj h
    rw [String.toList_append, endsComment_append_harmless (by decide), String.toList_append]
    have hstart : "*\n".toList = "*".toList ++ "\n".toList := rfl
    rw [hstart, List.append_assoc, endsComment_append_gap (by decide) (by decide), or_iff_right hstar]
    exact hlines _

theorem readComment_append {body : List Char} (h : ¬ EndsComment body) (rest : List Char) :
    readComment (body ++ '*' :: '/' :: rest) = some (body, rest) := by
  induction body with
  | nil => rfl
  | cons c body ih =>
    rw [endsComment_cons_iff, not_or] at h
    obtain ⟨hstart, hbody⟩ := h
    rw [List.cons_append, readComment, ih hbody, Option.map_some]
    intro after hstar hslash
    refine hstart ⟨hstar, ?_⟩
    cases body with
    | nil => cases hslash
    | cons d body => rw [List.head?_cons, (List.cons.inj hslash).1]

/-- A comment is read up to its first end. -/
theorem readComment_eq_some_iff {text body after : List Char} :
    readComment text = some (body, after) ↔
      text = body ++ '*' :: '/' :: after ∧ ¬ EndsComment body := by
  constructor
  · intro h
    induction text using readComment.induct generalizing body with
    | case1 => cases h
    | case2 rest =>
      cases h
      exact ⟨rfl, not_endsComment_nil⟩
    | case3 c rest hopen ih =>
      rw [readComment, Option.map_eq_some_iff] at h
      · obtain ⟨⟨inner, last⟩, hinner, heq⟩ := h
        cases heq
        obtain ⟨htext, hinner⟩ := ih hinner
        refine ⟨by rw [htext, List.cons_append], ?_⟩
        rw [endsComment_cons_iff, not_or]
        refine ⟨?_, hinner⟩
        rintro ⟨hstar, hslash⟩
        obtain ⟨more, rfl⟩ := List.head?_eq_some_iff.mp hslash
        exact hopen _ hstar htext
      · exact hopen
  · rintro ⟨rfl, h⟩
    exact readComment_append h after

/-! ## Names -/

theorem readString_escaped (text rest : List Char) :
    readString (text.flatMap escapedChar ++ '"' :: rest) =
      if text.any endsLine then none else some (String.ofList text, rest) := by
  rw [readString, Structs.readLiteral_escaped]

theorem readString_quoted (name : String) (rest : List Char) :
    ∃ literal, (quoted name).toList ++ rest = '"' :: literal ∧
      readString literal = if name.toList.any endsLine then none else some (name, rest) := by
  refine ⟨name.toList.flatMap escapedChar ++ '"' :: rest, by simp [quoted], ?_⟩
  rw [readString_escaped, String.ofList_toList]

theorem readQuoted_quoted (name : String) (rest : List Char) :
    readQuoted ((quoted name).toList ++ rest) =
      if name.toList.any endsLine then none else some (name, rest) := by
  obtain ⟨literal, htext, hread⟩ := readString_quoted name rest
  have hquote : after? ['"'] (skip ('"' :: literal)) = some literal := rfl
  rw [htext, readQuoted, hquote, Option.bind_some, hread]

theorem isNameChar_of_isIdentifier {name : String} (h : isIdentifier name) :
    name.toList ≠ [] ∧ ∀ c ∈ name.toList, isNameChar c := by
  rw [isIdentifier] at h
  cases hname : name.toList with
  | nil =>
    rw [hname] at h
    cases h
  | cons c cs =>
    rw [hname] at h
    obtain ⟨hc, hcs⟩ := Bool.and_eq_true_iff.mp h
    refine ⟨List.cons_ne_nil c cs, List.forall_mem_cons.mpr ⟨?_, List.all_eq_true.mp hcs⟩⟩
    rw [isNameChar, Char.isAlphanum, ← Bool.or_assoc, hc, Bool.true_or]

theorem not_endsLine_of_isNameChar {c : Char} (h : isNameChar c) : endsLine c = false := by
  rw [endsLine, Bool.or_eq_false_iff, beq_eq_false_iff_ne, beq_eq_false_iff_ne]
  constructor
  · rintro rfl
    cases h
  · rintro rfl
    cases h

/-- The name of a member is read if it stays in its line. -/
theorem readKey_propertyName {rest : List Char} (hrest : Text.Starts (isNameChar · = false) rest)
    (name : String) : readKey ((propertyName name).toList ++ rest) =
      if name.toList.any endsLine then none else some (name, rest) := by
  rw [propertyName]
  split
  next hplain =>
    obtain ⟨hidentifier, -⟩ := Bool.and_eq_true_iff.mp hplain
    obtain ⟨hne, hchars⟩ := isNameChar_of_isIdentifier hidentifier
    obtain ⟨c, more, hname, hc⟩ := Text.starts_of_forall hne hchars
    have hquote : after? ['"'] (name.toList ++ rest) = none := by
      rw [hname]
      refine after?_of_ne ?_ [] [] _
      rintro rfl
      cases hc
    have hline : name.toList.any endsLine = false := by
      rw [List.any_eq_false]
      intro d hd
      rw [not_endsLine_of_isNameChar (hchars d hd)]
      exact Bool.false_ne_true
    rw [readKey, hquote, takeWhile_append_of_starts hchars hrest,
      dropWhile_append_of_starts hchars hrest, String.ofList_toList, hline]
    exact if_pos hidentifier
  · obtain ⟨literal, htext, hread⟩ := readString_quoted name rest
    have hquote : after? ['"'] ('"' :: literal) = some literal := rfl
    rw [htext, readKey, hquote]
    exact hread

theorem readNames_blank (text : List Char) : readNames (' ' :: text) = readNames text := by
  rw [readNames_eq, readNames_eq]
  rfl

/-- Names that are left out of a parent are read if each of them stays in its line. -/
theorem readNames_quoted {names : List String} (hne : names ≠ []) (rest : List Char) :
    readNames ((" | ".intercalate (names.map quoted)).toList ++ '>' :: rest) =
      if names.any (·.toList.any endsLine) then none else some (names, rest) := by
  induction names with
  | nil => exact absurd rfl hne
  | cons name names ih =>
    cases names with
    | nil =>
      have hbar : after? ['|'] (skip ('>' :: rest)) = none := rfl
      have hclose : after? ['>'] ('>' :: rest) = some rest := rfl
      rw [List.map_singleton, String.intercalate_singleton, readNames_eq, readQuoted_quoted,
        List.any_cons, List.any_nil, Bool.or_false]
      split
      · rfl
      · simp only [Option.bind_some, hbar, hclose]
        rfl
    | cons next names =>
      have htext : (" | ".intercalate ((name :: next :: names).map quoted)).toList ++ '>' :: rest =
          (quoted name).toList ++ (" | ".toList ++
            ((" | ".intercalate ((next :: names).map quoted)).toList ++ '>' :: rest)) := by
        rw [List.map_cons, List.map_cons, String.intercalate_cons_cons, ← List.map_cons,
          String.toList_append, String.toList_append]
        simp only [List.append_assoc]
      have hbar (text : List Char) : after? ['|'] (skip (" | ".toList ++ text)) = some (' ' :: text) := rfl
      rw [htext, readNames_eq, readQuoted_quoted, List.any_cons]
      cases name.toList.any endsLine with
      | true => rfl
      | false =>
        simp only [Bool.false_or, Bool.false_eq_true, if_false, Option.bind_some, hbar,
          readNames_blank, ih (List.cons_ne_nil next names)]
        split
        · rfl
        · rfl

/-! ## Members -/

/-- The line of a member without the blanks in front of it. -/
def Property.line (p : Property) : String :=
  (if p.readonly then "readonly " else "") ++ (propertyName p.name
    ++ ((if p.optional then "?" else "") ++ (": " ++ (p.typeText ++ ";\n"))))

/-- What should be read of a member. -/
def Property.entry (p : Property) : MemberEntry :=
  ⟨commentBody p.notes, p.readonly, p.name, p.optional, p.typeText⟩

variable {p : Property} {rest : List Char}

theorem toList_text (p : Property) (rest : List Char) : p.text.toList ++ rest =
    (comment p.notes).toList ++ ("  ".toList ++ (p.line.toList ++ rest)) := by
  rw [p.text_eq, Property.beginning, Property.line]
  simp only [String.toList_append, List.append_assoc]

theorem starts_propertyName (name : String) (rest : List Char) :
    Text.Starts (fun c => c = '"' ∨ isNameChar c) ((propertyName name).toList ++ rest) := by
  rw [propertyName]
  split
  next hplain =>
    obtain ⟨hne, hchars⟩ := isNameChar_of_isIdentifier (Bool.and_eq_true_iff.mp hplain).1
    exact ((Text.starts_of_forall hne hchars).imp fun c => Or.inr).append rest
  · obtain ⟨literal, htext, -⟩ := readString_quoted name rest
    exact ⟨'"', literal, htext, Or.inl rfl⟩

theorem starts_line (p : Property) (rest : List Char) :
    Text.Starts (fun c => c = '"' ∨ isNameChar c) (p.line.toList ++ rest) := by
  rw [Property.line, String.toList_append, String.toList_append, List.append_assoc,
    List.append_assoc]
  cases p.readonly with
  | true => exact ⟨'r', _, rfl, Or.inr rfl⟩
  | false => exact starts_propertyName p.name _

/-- The name of a member is not taken for the mark in front of it. -/
theorem after?_readonly (name : String) (hrest : Text.Starts (fun c => c = '?' ∨ c = ':') rest) :
    after? "readonly ".toList ((propertyName name).toList ++ rest) = none := by
  rw [propertyName]
  split
  next hplain =>
    obtain ⟨-, hchars⟩ := isNameChar_of_isIdentifier (Bool.and_eq_true_iff.mp hplain).1
    have hword : ∀ c ∈ "readonly".toList, isNameChar c := List.all_eq_true.mp (by decide)
    have hstop : Text.Starts (fun c => isNameChar c = false ∧ c ≠ ' ') rest :=
      hrest.imp fun c hc => by rcases hc with rfl | rfl <;> decide
    exact after?_of_word hword rfl hchars hstop []
  · obtain ⟨literal, htext, -⟩ := readString_quoted name rest
    rw [htext]
    rfl

theorem passOver_readonly (readonly : Bool) (name : String)
    (hrest : Text.Starts (fun c => c = '?' ∨ c = ':') rest) :
    passOver "readonly ".toList
        ((if readonly then "readonly " else "").toList ++ ((propertyName name).toList ++ rest)) =
      (readonly, (propertyName name).toList ++ rest) := by
  cases readonly with
  | true =>
    rw [if_pos rfl, passOver, after?_append]
  | false =>
    have hnone := after?_readonly name hrest
    rw [if_neg Bool.false_ne_true, passOver]
    have hempty : "".toList ++ ((propertyName name).toList ++ rest) =
      (propertyName name).toList ++ rest := rfl
    rw [hempty, hnone]

theorem readLine_line (comment : Option String) (htype : ';' ∉ p.typeText.toList)
    (rest : List Char) : readLine comment (p.line.toList ++ rest) =
      if p.name.toList.any endsLine then none
      else some (⟨comment, p.readonly, p.name, p.optional, p.typeText⟩, '\n' :: rest) := by
  have htext : p.line.toList ++ rest = (if p.readonly then "readonly " else "").toList ++
      ((propertyName p.name).toList ++ ((if p.optional then "?" else "").toList ++
        (": ".toList ++ (p.typeText.toList ++ ';' :: '\n' :: rest)))) := by
    rw [Property.line]
    simp only [String.toList_append, List.append_assoc]
    rfl
  have hoptional : Text.Starts (fun c => c = '?' ∨ c = ':') ((if p.optional then "?" else "").toList ++
      (": ".toList ++ (p.typeText.toList ++ ';' :: '\n' :: rest))) := by
    cases p.optional with
    | true => exact ⟨'?', _, rfl, Or.inl rfl⟩
    | false => exact ⟨':', _, rfl, Or.inr rfl⟩
  have hstop : Text.Starts (isNameChar · = false) ((if p.optional then "?" else "").toList ++
      (": ".toList ++ (p.typeText.toList ++ ';' :: '\n' :: rest))) :=
    hoptional.imp fun c hc => by rcases hc with rfl | rfl <;> rfl
  have hmark : passOver ['?'] ((if p.optional then "?" else "").toList ++
      (": ".toList ++ (p.typeText.toList ++ ';' :: '\n' :: rest))) =
        (p.optional, ": ".toList ++ (p.typeText.toList ++ ';' :: '\n' :: rest)) := by
    cases p.optional <;> rfl
  rw [htext, readLine, passOver_readonly _ _ hoptional]
  simp only [readKey_propertyName hstop, Option.bind_eq_bind]
  split
  · rfl
  · simp only [Option.bind_some, hmark, after?_append, cutFirst_append htype, String.ofList_toList]
    rfl

theorem comment_of_readLine {comment : Option String} {text after : List Char} {m : MemberEntry}
    (h : readLine comment text = some (m, after)) : m.comment = comment := by
  obtain ⟨⟨name, afterName⟩, -, h⟩ := Option.bind_eq_some_iff.mp h
  obtain ⟨afterColon, -, h⟩ := Option.bind_eq_some_iff.mp h
  obtain ⟨⟨type, afterType⟩, -, h⟩ := Option.bind_eq_some_iff.mp h
  cases h
  rfl

theorem skip_of_starts {text : List Char} (h : Text.Starts (·.isWhitespace = false) text) :
    skip text = text := by
  obtain ⟨c, more, rfl, hc⟩ := h
  exact List.dropWhile_cons_of_neg (Bool.eq_false_iff.mp hc)

theorem isWhitespace_eq_false {c : Char} (h : c = '"' ∨ isNameChar c) : c.isWhitespace = false := by
  rw [Bool.eq_false_iff]
  intro hspace
  simp only [Char.isWhitespace, Bool.or_eq_true, decide_eq_true_eq] at hspace
  rcases hspace with ((rfl | rfl) | rfl) | rfl
  all_goals rcases h with h | h <;> cases h

theorem skip_line (p : Property) (rest : List Char) :
    skip (p.line.toList ++ rest) = p.line.toList ++ rest :=
  skip_of_starts ((starts_line p rest).imp fun _ => isWhitespace_eq_false)

theorem skip_text (p : Property) (rest : List Char) : skip (p.text.toList ++ rest) =
    match commentBody p.notes with
    | none => p.line.toList ++ rest
    | some body => "/*".toList ++
        (body.toList ++ '*' :: '/' :: ("\n  ".toList ++ (p.line.toList ++ rest))) := by
  rw [toList_text, toList_comment]
  cases commentBody p.notes with
  | none =>
    have hskip : skip ("  ".toList ++ (p.line.toList ++ rest)) = skip (p.line.toList ++ rest) := rfl
    rw [Option.map_none, Option.getD_none, List.nil_append, hskip, skip_line]
  | some body =>
    have htext : "  /*".toList ++ (body.toList ++ '*' :: '/' :: ['\n']) ++
        ("  ".toList ++ (p.line.toList ++ rest)) = "  ".toList ++ ("/*".toList ++
          (body.toList ++ '*' :: '/' :: ("\n  ".toList ++ (p.line.toList ++ rest)))) := by
      simp
    have hskip (text : List Char) : skip ("  ".toList ++ ("/*".toList ++ text)) = "/*".toList ++ text := rfl
    rw [Option.map_some, Option.getD_some, htext, hskip]

/-- The comment of a member is read from its notes. -/
theorem readDoc_text (p : Property) (rest : List Char) :
    readDoc (skip (p.text.toList ++ rest)) =
      match commentBody p.notes with
      | none => some (none, p.line.toList ++ rest)
      | some body =>
        (readComment (body.toList ++ '*' :: '/' :: ("\n  ".toList ++ (p.line.toList ++ rest)))).map
          fun (body, rest) => (some (String.ofList body), rest) := by
  rw [skip_text]
  cases commentBody p.notes with
  | none =>
    have hopen : after? "/*".toList (p.line.toList ++ rest) = none := by
      obtain ⟨c, more, htext, hc⟩ := starts_line p rest
      rw [htext]
      refine after?_of_ne ?_ [] ['*'] more
      rintro rfl
      rcases hc with hc | hc <;> cases hc
    dsimp only
    rw [readDoc, hopen]
  | some body =>
    dsimp only
    rw [readDoc, after?_append]

/-- No note ends the comment that it stands in, and the name stays in its line. -/
structure Property.Contained (p : Property) : Prop where
  notes : ∀ note ∈ p.notes, ¬ EndsComment note.toList
  name : p.name.toList.any endsLine = false

theorem exists_readDoc_text (h : ∀ note ∈ p.notes, ¬ EndsComment note.toList) (rest : List Char) :
    ∃ line, readDoc (skip (p.text.toList ++ rest)) = some (commentBody p.notes, line) ∧
      skip line = p.line.toList ++ rest := by
  rw [readDoc_text]
  cases hbody : commentBody p.notes with
  | none => exact ⟨_, rfl, skip_line p rest⟩
  | some body =>
    have hends : ¬ EndsComment body.toList := by
      rw [endsComment_commentBody hbody]
      rintro ⟨note, hnote, hends⟩
      exact h note hnote hends
    have hskip : skip ("\n  ".toList ++ (p.line.toList ++ rest)) = skip (p.line.toList ++ rest) := rfl
    refine ⟨"\n  ".toList ++ (p.line.toList ++ rest), ?_, by rw [hskip, skip_line]⟩
    dsimp only
    rw [readComment_append hends, Option.map_some, String.ofList_toList]

/-- A member whose texts stay in their places is read as what it was printed from. -/
theorem readMember_text (h : p.Contained) (htype : ';' ∉ p.typeText.toList) (rest : List Char) :
    readMember (p.text.toList ++ rest) = some (p.entry, '\n' :: rest) := by
  obtain ⟨line, hdoc, hline⟩ := exists_readDoc_text h.notes rest
  rw [readMember, hdoc]
  simp only [Option.bind_eq_bind, Option.bind_some]
  rw [hline, readLine_line _ htype, h.name, if_neg Bool.false_ne_true]
  rfl

/-- A member that is read as what it was printed from has its texts in their places. -/
theorem contained_of_readMember (htype : ';' ∉ p.typeText.toList) {after : List Char}
    (h : readMember (p.text.toList ++ rest) = some (p.entry, after)) : p.Contained := by
  obtain ⟨⟨comment, line⟩, hdoc, hline⟩ := Option.bind_eq_some_iff.mp h
  have hcomment : commentBody p.notes = comment := comment_of_readLine hline
  have hnotes : ∀ note ∈ p.notes, ¬ EndsComment note.toList := by
    intro note hnote hends
    rw [← hcomment, readDoc_text] at hdoc
    cases hbody : commentBody p.notes with
    | none =>
      rw [commentBody_eq_none_iff.mp hbody] at hnote
      cases hnote
    | some body =>
      rw [hbody] at hdoc
      obtain ⟨⟨read, last⟩, hread, heq⟩ := Option.map_eq_some_iff.mp hdoc
      have hsame : String.ofList read = body := Option.some.inj (Prod.mk.inj heq).1
      have hopen : ¬ EndsComment body.toList := by
        rw [← hsame, String.toList_ofList]
        exact (readComment_eq_some_iff.mp hread).2
      exact hopen ((endsComment_commentBody hbody).mpr ⟨note, hnote, hends⟩)
  refine ⟨hnotes, ?_⟩
  obtain ⟨expected, hexpected, hskip⟩ := exists_readDoc_text hnotes rest
  obtain ⟨-, rfl⟩ := Prod.mk.inj (Option.some.inj (hdoc.symm.trans hexpected))
  dsimp only at hline
  rw [hskip, readLine_line _ htype] at hline
  split at hline
  · cases hline
  next hname => exact Bool.eq_false_iff.mpr hname

/-- A member is not taken for the closing brace. -/
theorem after?_brace (p : Property) (rest : List Char) :
    after? ['\x7d'] (skip (p.text.toList ++ rest)) = none := by
  rw [skip_text]
  cases commentBody p.notes with
  | none =>
    obtain ⟨c, more, htext, hc⟩ := starts_line p rest
    dsimp only
    rw [htext]
    refine after?_of_ne ?_ [] [] more
    rintro rfl
    rcases hc with hc | hc <;> cases hc
  | some body => rfl

theorem readMembers_newline (text : List Char) : readMembers ('\n' :: text) = readMembers text := by
  rw [readMembers_eq, readMembers_eq]
  rfl

theorem toList_join_cons (p : Property) (ps : List Property) (rest : List Char) :
    (String.join ((p :: ps).map Property.text)).toList ++ rest =
      p.text.toList ++ ((String.join (ps.map Property.text)).toList ++ rest) := by
  rw [List.map_cons, String.join_cons, String.toList_append, List.append_assoc]

/-- Members whose texts stay in their places are read as what they were printed from. -/
theorem readMembers_join {ps : List Property} (htypes : ∀ p ∈ ps, ';' ∉ p.typeText.toList)
    (h : ∀ p ∈ ps, p.Contained) (rest : List Char) :
    readMembers ((String.join (ps.map Property.text)).toList ++ '\x7d' :: rest) =
      some (ps.map Property.entry, rest) := by
  induction ps with
  | nil =>
    rw [readMembers_eq]
    rfl
  | cons p ps ih =>
    obtain ⟨htype, htypes⟩ := List.forall_mem_cons.mp htypes
    obtain ⟨hp, hothers⟩ := List.forall_mem_cons.mp h
    rw [toList_join_cons, readMembers_eq, after?_brace, readMember_text hp htype]
    simp only [Option.bind_some, readMembers_newline, ih htypes hothers]
    rfl

/-- Members that are read as what they were printed from have their texts in their places, whatever
is left behind them. -/
theorem contained_of_readMembers {ps : List Property} (htypes : ∀ p ∈ ps, ';' ∉ p.typeText.toList)
    {after : List Char}
    (h : readMembers ((String.join (ps.map Property.text)).toList ++ '\x7d' :: rest) =
      some (ps.map Property.entry, after)) : ∀ p ∈ ps, p.Contained := by
  induction ps with
  | nil => nofun
  | cons p ps ih =>
    obtain ⟨htype, htypes⟩ := List.forall_mem_cons.mp htypes
    rw [toList_join_cons, readMembers_eq, after?_brace] at h
    obtain ⟨⟨m, afterMember⟩, hm, h⟩ := Option.bind_eq_some_iff.mp h
    obtain ⟨⟨ms, last⟩, hms, h⟩ := Option.map_eq_some_iff.mp h
    cases h
    have hp := contained_of_readMember htype hm
    obtain ⟨-, rfl⟩ := Prod.mk.inj (Option.some.inj (hm.symm.trans (readMember_text hp htype _)))
    exact List.forall_mem_cons.mpr ⟨hp, ih htypes ((readMembers_newline _).symm.trans hms)⟩

/-! ## Interfaces -/

/-- What should be read of an interface. -/
def Interface.entry (i : Interface) : InterfaceEntry :=
  ⟨i.name, i.parent.map fun parent => (parent, i.omitted), i.members.map Property.entry⟩

theorem after?_omit {parent : String} (h : isPlain parent) (rest : List Char) :
    after? " extends Omit<".toList (" extends ".toList ++ (parent.toList ++ ' ' :: rest)) = none := by
  have hmark : " extends Omit<".toList = " extends ".toList ++ ("Omit".toList ++ '<' :: []) := rfl
  have hword : ∀ c ∈ "Omit".toList, (!isGap c) = true := List.all_eq_true.mp (by decide)
  have hparent : ∀ c ∈ parent.toList, (!isGap c) = true :=
    List.all_eq_true.mp (Bool.and_eq_true_iff.mp h).2
  rw [hmark, after?_append_append]
  exact after?_of_word hword rfl hparent ⟨' ', rest, rfl, by decide⟩ []

/-- The parent and the names that are left out of it are read if these names stay in their line. -/
theorem readHeritage_heritage {parent : Option String} (hparent : ∀ p ∈ parent, isPlain p)
    (omitted : List String) (rest : List Char) :
    readHeritage ((heritage parent omitted).toList ++ ' ' :: '\x7b' :: rest) =
      if parent.isSome && omitted.any (·.toList.any endsLine) then none
      else some (parent.map fun parent => (parent, omitted), ' ' :: '\x7b' :: rest) := by
  cases parent with
  | none => rfl
  | some parent =>
    have hplain : isPlain parent := hparent parent rfl
    by_cases hempty : omitted = []
    · have htext : (heritage (some parent) omitted).toList ++ ' ' :: '\x7b' :: rest =
          " extends ".toList ++ (parent.toList ++ ' ' :: '\x7b' :: rest) := by
        simp [heritage, hempty]
      rw [htext, readHeritage, after?_omit hplain, after?_append]
      simp only [readName_append hplain ⟨' ', _, rfl, rfl⟩, Option.bind_eq_bind, Option.bind_some,
        hempty]
      rfl
    · have htext : (heritage (some parent) omitted).toList ++ ' ' :: '\x7b' :: rest =
          " extends Omit<".toList ++ (parent.toList ++ ',' :: ' ' ::
            ((" | ".intercalate (omitted.map quoted)).toList ++ '>' :: ' ' :: '\x7b' :: rest)) := by
        rw [heritage, if_neg (by simpa using hempty)]
        simp only [String.toList_append, List.append_assoc]
        rfl
      have hcomma (text : List Char) : after? [','] (',' :: ' ' :: text) = some (' ' :: text) := rfl
      rw [htext, readHeritage, after?_append]
      simp only [readName_append hplain ⟨',', _, rfl, rfl⟩, Option.bind_eq_bind, Option.bind_some,
        hcomma, readNames_blank, readNames_quoted hempty, Option.isSome_some, Bool.true_and]
      split
      · rfl
      · rfl

/-- What the writer of an interface puts in itself has no marks in it: the names of interfaces are
plain, and no type has a semicolon. -/
structure Interface.Formed (i : Interface) : Prop where
  name : isPlain i.name
  parent : ∀ p ∈ i.parent, isPlain p
  types : ∀ p ∈ i.members, ';' ∉ p.typeText.toList

/-- All texts of the user stay in their places. -/
structure Interface.Contained (i : Interface) : Prop where
  omitted : (i.parent.isSome && i.omitted.any (·.toList.any endsLine)) = false
  members : ∀ p ∈ i.members, p.Contained

variable {i : Interface}

theorem toList_interfaceText (i : Interface) (rest : List Char) : i.text.toList ++ rest =
    "export interface ".toList ++ (i.name.toList ++ ((heritage i.parent i.omitted).toList ++
      ' ' :: '\x7b' :: '\n' ::
        ((String.join (i.members.map Property.text)).toList ++ '\x7d' :: rest))) := by
  rw [i.text_eq]
  simp

/-- An interface is read if its members are, and the names that it leaves out of its parent stay in
their line. -/
theorem readInterface_eq (hi : i.Formed) (rest : List Char) :
    readInterface (i.text.toList ++ rest) =
      if i.parent.isSome && i.omitted.any (·.toList.any endsLine) then none
      else (readMembers ((String.join (i.members.map Property.text)).toList ++ '\x7d' :: rest)).map
        fun (members, after) =>
          (⟨i.name, i.parent.map fun parent => (parent, i.omitted), members⟩, after) := by
  have hbrace (text : List Char) : after? ['\x7b'] (skip (' ' :: '\x7b' :: text)) = some text := rfl
  rw [toList_interfaceText, readInterface, after?_append]
  simp only [readName_append hi.name (starts_heritage _ _ _), Option.bind_eq_bind,
    Option.bind_some, readHeritage_heritage hi.parent]
  split
  · rfl
  · simp only [Option.bind_some, hbrace, readMembers_newline, Option.map_eq_bind]
    rfl

/-- An interface whose texts stay in their places is read as what it was printed from. -/
theorem readInterface_text (hi : i.Formed) (h : i.Contained) (rest : List Char) :
    readInterface (i.text.toList ++ rest) = some (i.entry, rest) := by
  rw [readInterface_eq hi, h.omitted, if_neg Bool.false_ne_true, readMembers_join hi.types h.members]
  rfl

/-- An interface that is read as what it was printed from has all texts in their places, whatever
is left behind it. -/
theorem contained_of_readInterface (hi : i.Formed) {after : List Char}
    (h : readInterface (i.text.toList ++ rest) = some (i.entry, after)) : i.Contained := by
  rw [readInterface_eq hi] at h
  split at h
  · cases h
  next homitted =>
    obtain ⟨⟨members, last⟩, hmembers, h⟩ := Option.map_eq_some_iff.mp h
    obtain ⟨hentry, rfl⟩ := Prod.mk.inj h
    obtain rfl : members = i.members.map Property.entry := congrArg InterfaceEntry.members hentry
    exact ⟨Bool.eq_false_iff.mpr homitted, contained_of_readMembers hi.types hmembers⟩

/-! ## Fields -/

variable {names : TypeNames}

theorem semicolon_not_mem_of_isPlain {word : String} (h : isPlain word) : ';' ∉ word.toList := by
  intro hmem
  have hplain := List.all_eq_true.mp (Bool.and_eq_true_iff.mp h).2 _ hmem
  cases hplain

theorem semicolon_not_mem_memberText {t : PropertyType} (h : ';' ∉ t.text.toList) :
    ';' ∉ t.memberText.toList := by
  rw [PropertyType.memberText]
  split
  · simpa using h
  · exact h

mutual

/-- No type has a semicolon in it. -/
theorem semicolon_not_mem_text (hnames : ∀ word ∈ typeWords names, Naming.isTypeName word.toList) :
    (t : TypeExpr) → ';' ∉ (PropertyType.ofType names t).text.toList
  | .scalar kind => by
    have hscalar : ';' ∉ (PropertyType.ofScalar kind).text.toList := by cases kind <;> decide
    exact hscalar
  | .external _ => by
    have hunknown : ';' ∉ "unknown".toList := by decide
    exact hunknown
  | .definition name => by
    rw [text_definition]
    exact semicolon_not_mem_of_isPlain (isPlain_typeName hnames (by decide) name)
  | .list element => by
    have helement := semicolon_not_mem_text hnames element
    simpa [PropertyType.ofType, PropertyType.text_array] using helement
  | .map element => by
    have helement := semicolon_not_mem_text hnames element
    simpa [PropertyType.ofType, PropertyType.text_record] using helement
  | .union members => by
    have hmembers := semicolon_not_mem_texts hnames members
    rw [PropertyType.ofType, PropertyType.text_union, PropertyType.ofTypes_eq, List.map_map,
      String.toList_intercalate]
    intro hmem
    rcases Text.exists_of_mem_intercalate hmem with hmem | ⟨text, htext, hmem⟩
    · exact absurd hmem (by decide)
    · obtain ⟨printed, hprinted, rfl⟩ := List.mem_map.mp htext
      obtain ⟨member, hmember, rfl⟩ := List.mem_map.mp hprinted
      exact semicolon_not_mem_memberText (hmembers member hmember) hmem

theorem semicolon_not_mem_texts
    (hnames : ∀ word ∈ typeWords names, Naming.isTypeName word.toList) :
    (ts : List TypeExpr) → ∀ t ∈ ts, ';' ∉ (PropertyType.ofType names t).text.toList
  | [] => nofun
  | t :: ts => List.forall_mem_cons.mpr
    ⟨semicolon_not_mem_text hnames t, semicolon_not_mem_texts hnames ts⟩

end

theorem semicolon_not_mem_typeText
    (hnames : ∀ word ∈ typeWords names, Naming.isTypeName word.toList) (immutable : Bool)
    (f : FieldView) : ';' ∉ (Property.ofField names immutable f).typeText.toList := by
  have htype := semicolon_not_mem_text hnames f.type
  rw [typeText_ofField]
  split
  · simpa using htype
  · simpa using htype

/-- The texts of a field stay in their places: neither its note nor a string in its default value
ends a comment, and its name is on one line. -/
structure Contained (f : FieldView) : Prop where
  deprecated : ∀ note ∈ f.deprecated, ¬ EndsComment note.toList
  defaultValue : ∀ d ∈ f.defaultValue, ∀ text ∈ d.texts, ¬ EndsComment text.toList
  name : f.name.toList.any endsLine = false

instance (f : FieldView) : Decidable (Contained f) :=
  decidable_of_iff ((∀ note ∈ f.deprecated, ¬ EndsComment note.toList) ∧
      (∀ d ∈ f.defaultValue, ∀ text ∈ d.texts, ¬ EndsComment text.toList) ∧
      f.name.toList.any endsLine = false)
    ⟨fun h => ⟨h.1, h.2.1, h.2.2⟩, fun h => ⟨h.deprecated, h.defaultValue, h.name⟩⟩

theorem contained_ofField_iff (names : TypeNames) (immutable : Bool) (f : FieldView) :
    (Property.ofField names immutable f).Contained ↔ Contained f := by
  have hnote (note : String) :
      EndsComment ("@deprecated " ++ note).toList ↔ EndsComment note.toList := by
    rw [String.toList_append]
    exact endsComment_harmless_append (by decide) _
  have hdefault (d : Document) : EndsComment ("@default " ++ Json.compact d).toList ↔
      ∃ text ∈ d.texts, EndsComment text.toList := by
    rw [String.toList_append, endsComment_harmless_append (by decide)]
    exact Json.endsComment_compact d
  have hnotes : (∀ note ∈ (Property.ofField names immutable f).notes, ¬ EndsComment note.toList) ↔
      (∀ note ∈ f.deprecated, ¬ EndsComment note.toList) ∧
        ∀ d ∈ f.defaultValue, ∀ text ∈ d.texts, ¬ EndsComment text.toList := by
    refine List.forall_mem_append.trans (and_congr ?_ ?_)
    · cases f.deprecated with
      | none => exact iff_of_true nofun nofun
      | some note =>
        rw [Option.map_some, Option.toList_some, List.forall_mem_singleton, hnote]
        exact ⟨fun h _ hsome => Option.some.inj hsome ▸ h, fun h => h note rfl⟩
    · cases f.defaultValue with
      | none => exact iff_of_true nofun nofun
      | some d =>
        rw [Option.map_some, Option.toList_some, List.forall_mem_singleton, hdefault]
        constructor
        · intro h _ hsome text htext hends
          obtain rfl := Option.some.inj hsome
          exact h ⟨text, htext, hends⟩
        · rintro h ⟨text, htext, hends⟩
          exact h d rfl text htext hends
  constructor
  · intro h
    obtain ⟨hdeprecated, hdefaults⟩ := hnotes.mp h.notes
    exact ⟨hdeprecated, hdefaults, h.name⟩
  · intro h
    exact ⟨hnotes.mpr ⟨h.deprecated, h.defaultValue⟩, h.name⟩

/-- A member is read as what it was printed from if and only if the texts of its field stay in
their places. -/
theorem readMember_ofField_iff
    (hnames : ∀ word ∈ typeWords names, Naming.isTypeName word.toList) (immutable : Bool)
    (f : FieldView) (rest : List Char) :
    readMember ((Property.ofField names immutable f).text.toList ++ rest) =
      some ((Property.ofField names immutable f).entry, '\n' :: rest) ↔ Contained f := by
  have htype := semicolon_not_mem_typeText hnames immutable f
  rw [← contained_ofField_iff names immutable f]
  exact ⟨contained_of_readMember htype, fun h => readMember_text h htype rest⟩

theorem formed_ofDefinition (hnames : ∀ word ∈ typeWords names, Naming.isTypeName word.toList)
    (d : DefinitionView) : (Interface.ofDefinition names d).Formed where
  name := isPlain_typeName hnames (by decide) d.name
  parent p hp := by
    obtain ⟨name, -, rfl⟩ := Option.map_eq_some_iff.mp hp
    exact isPlain_typeName hnames (by decide) name
  types p hp := by
    obtain ⟨f, -, rfl⟩ := List.mem_map.mp hp
    exact semicolon_not_mem_typeText hnames d.immutable f

/-- The names that are left out of a parent are names of members. -/
theorem contained_ofDefinition_iff (names : TypeNames) (d : DefinitionView) :
    (Interface.ofDefinition names d).Contained ↔ ∀ f ∈ Target.typescript.listed d, Contained f := by
  have hmembers : (Interface.ofDefinition names d).members =
      (Target.typescript.listed d).map (Property.ofField names d.immutable) := rfl
  have hfields : (∀ p ∈ (Interface.ofDefinition names d).members, p.Contained) ↔
      ∀ f ∈ Target.typescript.listed d, Contained f := by
    rw [hmembers, List.forall_mem_map]
    simp only [contained_ofField_iff]
  refine ⟨fun h => hfields.mp h.members, fun h => ⟨?_, hfields.mpr h⟩⟩
  rw [Bool.and_eq_false_iff, List.any_eq_false]
  refine Or.inr fun name hname => ?_
  obtain ⟨f, hf, rfl⟩ := List.mem_map.mp hname
  simp [(h f (List.mem_filter.mp hf).1).name]

theorem readInterface_ofDefinition_iff
    (hnames : ∀ word ∈ typeWords names, Naming.isTypeName word.toList) (d : DefinitionView)
    (rest : List Char) :
    readInterface ((Interface.ofDefinition names d).text.toList ++ rest) =
      some ((Interface.ofDefinition names d).entry, rest) ↔
        ∀ f ∈ Target.typescript.listed d, Contained f := by
  have hformed := formed_ofDefinition hnames d
  rw [← contained_ofDefinition_iff names]
  exact ⟨contained_of_readInterface hformed, fun h => readInterface_text hformed h rest⟩

/-- The comment in front of a member is opened before its notes and closed behind them. A member is
read as what it was printed from if and only if the texts of its field stay in their places: then
its comment ends where it is closed, and its name is an identifier or a literal on one line. A printed
interface, with the names that are left out of its parent, is read if and only if all its members
are. -/
theorem readInterface_iff_contained {decls : Declarations} {v : ViewModel}
    (h : ViewModel.ofDeclarations decls = .ok v) :
    List.Forall₂ (fun d i =>
        Within i.text (write v) ∧
        (∀ f ∈ Target.typescript.listed d,
          let p := Property.ofField (Target.typescript.typeNames v) d.immutable f
          p ∈ i.members ∧
            (comment p.notes).toList = ((commentBody p.notes).map fun body =>
              "  /*".toList ++ (body.toList ++ '*' :: '/' :: ['\n'])).getD [] ∧
            ∀ rest, readMember (p.text.toList ++ rest) = some (p.entry, '\n' :: rest) ↔
              Contained f) ∧
        ∀ rest, readInterface (i.text.toList ++ rest) = some (i.entry, rest) ↔
          ∀ f ∈ Target.typescript.listed d, Contained f)
      v.definitions (interfaces v) := by
  have hnames := Target.isTypeName_typeNames (ViewModel.closed_of_ofDeclarations h) .typescript
  rw [interfaces, List.forall₂_map_right_iff, List.forall₂_same]
  refine fun d hd => ⟨within_write (List.mem_map_of_mem hd),
    fun f hf => ⟨?_, toList_comment _, fun rest => ?_⟩, fun rest => ?_⟩
  · exact List.mem_map_of_mem hf
  · exact readMember_ofField_iff hnames d.immutable f rest
  · exact readInterface_ofDefinition_iff hnames d rest

/-- A note, a default value and a name with quotes, backslashes, stars and slashes. -/
def quotedTexts : Declarations := Catalogue.ofList
  [("Base", ⟨none, false, Catalogue.ofList [("a \"b\"", .ofType "int")]⟩),
    ("Gauge", ⟨some "Base", true, Catalogue.ofList [("a \"b\"",
      { FieldDeclaration.ofType "mixed" with
        deprecated := some "use \\* or /* here"
        defaultValue := some (.string "* /") })]⟩)]

theorem readInterface_iff_contained_quotedTexts : ∃ v, ViewModel.ofDeclarations quotedTexts = .ok v ∧
    (∀ d ∈ v.definitions, ∀ f ∈ Target.typescript.listed d, Contained f) ∧
    (∀ i ∈ interfaces v, ∀ rest, readInterface (i.text.toList ++ rest) = some (i.entry, rest)) ∧
    (interfaces v).map Interface.entry =
      [⟨"Base", none, [⟨none, false, "a \"b\"", true, "number"⟩]⟩,
        ⟨"Gauge", some ("Base", ["a \"b\""]),
          [⟨some "*\n   * @deprecated use \\* or /* here\n   * @default \"* /\"\n   ", true,
            "a \"b\"", true, "unknown"⟩]⟩] := by
  obtain ⟨v, hv, hcontained, hentries⟩ : ∃ v, ViewModel.ofDeclarations quotedTexts = .ok v ∧
      (∀ d ∈ v.definitions, ∀ f ∈ Target.typescript.listed d, Contained f) ∧
      (interfaces v).map Interface.entry =
        [⟨"Base", none, [⟨none, false, "a \"b\"", true, "number"⟩]⟩,
          ⟨"Gauge", some ("Base", ["a \"b\""]),
            [⟨some "*\n   * @deprecated use \\* or /* here\n   * @default \"* /\"\n   ", true,
              "a \"b\"", true, "unknown"⟩]⟩] :=
    exists_ok_of_decide (by decide +kernel)
  refine ⟨v, hv, hcontained, fun i hi rest => ?_, hentries⟩
  obtain ⟨d, hd, -, -, hread⟩ :=
    exists_of_forall₂_left (readInterface_iff_contained hv).flip i hi
  exact (hread rest).mpr (hcontained d hd)

/-- A note with the end of a comment in it, and a name on two lines. -/
def openTexts : Declarations := Catalogue.ofList
  [("Gauge", ⟨none, false, Catalogue.ofList
    [("level", { FieldDeclaration.ofType "int" with deprecated := some "see */ below" }),
      ("a\nb", .ofType "int")]⟩)]

/-- The comment ends in the note, and the literal has no end in its line. -/
theorem not_readMember_openTexts : ∃ v, ViewModel.ofDeclarations openTexts = .ok v ∧
    ∃ i ∈ interfaces v, i.members.map Property.text =
        ["  /** @deprecated see */ below */\n  level?: number;\n", "  \"a\nb\"?: number;\n"] ∧
      readDoc (skip "  /** @deprecated see */ below */\n  level?: number;\n".toList) =
        some (some "* @deprecated see ", " below */\n  level?: number;\n".toList) ∧
      ∀ p ∈ i.members, readMember p.text.toList = none := by
  obtain ⟨v, hv, i, hi, htexts⟩ : ∃ v, ViewModel.ofDeclarations openTexts = .ok v ∧
      ∃ i ∈ interfaces v, i.members.map Property.text =
        ["  /** @deprecated see */ below */\n  level?: number;\n", "  \"a\nb\"?: number;\n"] :=
    exists_ok_of_decide (by decide +kernel)
  refine ⟨v, hv, i, hi, htexts, by decide +kernel, ?_⟩
  have hnone : ∀ text ∈ i.members.map Property.text, readMember text.toList = none := by
    rw [htexts]
    decide +kernel
  exact List.forall_mem_map.mp hnone

end RecordDefinitions.Interfaces
