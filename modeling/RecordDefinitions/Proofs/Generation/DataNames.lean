import RecordDefinitions.Proofs.Generation.Capture
import RecordDefinitions.Proofs.Generation.Identifiers
import RecordDefinitions.Proofs.Json.Lines

/-!
# Names in data

A printed struct is read back: field by field, the identifier, the name that serialized data has
for it, and the type. The name in data is in the literal of the attribute `rename`, and where there
is no such attribute it is the identifier. What is read of the struct of a definition are the names
and types of all its fields, in their order.
-/

namespace RecordDefinitions

namespace Structs

open Generation Text

/-! ## Reader -/

/-- The text behind its first line if that line has a given beginning. -/
def withoutLine (beginning text : List Char) : List Char :=
  match after? beginning text with
  | some line => ((cutFirst '\n' line).map Prod.snd).getD []
  | none => text

/-- The text up to the closing quote of a literal, without the backslashes in front of backslashes
and quotes, and what follows that quote. -/
def readLiteral : List Char → Option (List Char × List Char)
  | [] => none
  | '"' :: rest => some ([], rest)
  | ['\\'] => none
  | '\\' :: c :: rest =>
    if c = '\\' ∨ c = '"' then (readLiteral rest).map fun (text, after) => (c :: text, after)
    else none
  | c :: rest => (readLiteral rest).map fun (text, after) => (c :: text, after)

/-- Where the lines of a struct start. -/
def indent : List Char := "    ".toList

/-- The name in an attribute `rename`, if the text starts with one, and what follows it. -/
def readRename (text : List Char) : Option (Option (List Char) × List Char) :=
  match after? (indent ++ "#[serde(rename = \"".toList) text with
  | none => some (none, text)
  | some literal => do
    let (name, rest) ← readLiteral literal
    let rest ← after? ")]\n".toList rest
    return (some name, rest)

/-- What is read of a field in front of its type. -/
structure FieldName where
  identifier : String
  /-- The name of the field in serialized data. -/
  dataName : String
deriving DecidableEq

/-- What is read of a field. -/
structure FieldEntry extends FieldName where
  type : String
deriving DecidableEq

/-- The names of a field behind its comment and attributes, and what follows its identifier. -/
def readFieldName (text : List Char) : Option (FieldName × List Char) := do
  let (renamed, rest) ← readRename (withoutLine (indent ++ "///".toList) text)
  let line ← after? indent (withoutLine (indent ++ "#[".toList) rest)
  let (identifier, rest) ← cutFirst ':' line
  return (⟨String.ofList identifier, String.ofList (renamed.getD identifier)⟩, rest)

/-- A field with its type, and what follows its line. -/
def readEntry (text : List Char) : Option (FieldEntry × List Char) := do
  let (name, rest) ← readFieldName text
  let (line, rest) ← cutFirst '\n' (← after? [' '] rest)
  let type ← before? [','] line
  return (⟨name, String.ofList type⟩, rest)

theorem length_withoutLine_le (beginning text : List Char) :
    (withoutLine beginning text).length ≤ text.length := by
  unfold withoutLine
  split
  next line hline =>
    have := length_of_after? hline
    cases hcut : cutFirst '\n' line with
    | none => exact Nat.zero_le _
    | some cut =>
      have := length_of_cutFirst hcut
      simp only [Option.map_some, Option.getD_some]
      omega
  · exact Nat.le_refl _

theorem length_of_readLiteral {text value after : List Char}
    (h : readLiteral text = some (value, after)) : after.length ≤ text.length := by
  induction text using readLiteral.induct generalizing value with
  | case1 => cases h
  | case2 rest =>
    cases h
    exact Nat.le_succ _
  | case3 => cases h
  | case4 c rest hc ih =>
    rw [readLiteral, if_pos hc, Option.map_eq_some_iff] at h
    obtain ⟨inner, hinner, heq⟩ := h
    cases heq
    have := ih hinner
    simp only [List.length_cons]
    omega
  | case5 c rest hc =>
    rw [readLiteral, if_neg hc] at h
    cases h
  | case6 c rest hquote hlast hescape ih =>
    rw [readLiteral, Option.map_eq_some_iff] at h
    · obtain ⟨inner, hinner, heq⟩ := h
      cases heq
      have := ih hinner
      simp only [List.length_cons]
      omega
    all_goals assumption

theorem length_of_readRename {text after : List Char} {renamed : Option (List Char)}
    (h : readRename text = some (renamed, after)) : after.length ≤ text.length := by
  unfold readRename at h
  split at h
  · cases h
    exact Nat.le_refl _
  next literal hliteral =>
    obtain ⟨⟨name, rest⟩, hname, h⟩ := Option.bind_eq_some_iff.mp h
    obtain ⟨last, hlast, h⟩ := Option.bind_eq_some_iff.mp h
    cases h
    have := length_of_after? hliteral
    have := length_of_readLiteral hname
    have := length_of_after? hlast
    omega

theorem length_of_readFieldName {text after : List Char} {name : FieldName}
    (h : readFieldName text = some (name, after)) : after.length ≤ text.length := by
  obtain ⟨⟨renamed, rest⟩, hrenamed, h⟩ := Option.bind_eq_some_iff.mp h
  obtain ⟨line, hline, h⟩ := Option.bind_eq_some_iff.mp h
  obtain ⟨⟨identifier, last⟩, hcut, h⟩ := Option.bind_eq_some_iff.mp h
  cases h
  have := length_withoutLine_le (indent ++ "///".toList) text
  have := length_of_readRename hrenamed
  have := length_withoutLine_le (indent ++ "#[".toList) rest
  have := length_of_after? hline
  have := length_of_cutFirst hcut
  omega

theorem length_of_readEntry {text after : List Char} {entry : FieldEntry}
    (h : readEntry text = some (entry, after)) : after.length < text.length := by
  obtain ⟨⟨name, afterName⟩, hname, h⟩ := Option.bind_eq_some_iff.mp h
  obtain ⟨start, hstart, h⟩ := Option.bind_eq_some_iff.mp h
  obtain ⟨⟨line, last⟩, hline, h⟩ := Option.bind_eq_some_iff.mp h
  obtain ⟨type, -, h⟩ := Option.bind_eq_some_iff.mp h
  cases h
  have := length_of_readFieldName hname
  have := length_of_after? hstart
  have := length_of_cutFirst hline
  omega

/-- The fields up to the closing brace, and what follows the line of this brace. -/
def readFields (text : List Char) : Option (List FieldEntry × List Char) :=
  match _h : readEntry text with
  | none => (after? "\x7d\n".toList text).map fun rest => ([], rest)
  | some (entry, rest) =>
    (readFields rest).map fun (entries, rest) => (entry :: entries, rest)
termination_by text.length
decreasing_by exact length_of_readEntry _h

theorem readFields_eq (text : List Char) : readFields text =
    match readEntry text with
    | none => (after? "\x7d\n".toList text).map fun rest => ([], rest)
    | some (entry, rest) =>
      (readFields rest).map fun (entries, rest) => (entry :: entries, rest) := by
  rw [readFields]
  split
  next hnone => rw [hnone]
  next entry rest hentry => rw [hentry]

/-- What is read of a struct. -/
structure StructEntry where
  name : String
  fields : List FieldEntry
deriving DecidableEq

/-- A struct behind its comment and its attribute, and what follows it. -/
def readStruct (text : List Char) : Option (StructEntry × List Char) := do
  let header ← after? "pub struct ".toList (withoutLine "#[".toList (withoutLine "///".toList text))
  let (header, body) ← cutFirst '\n' header
  let name ← before? " \x7b".toList header
  let (fields, rest) ← readFields body
  return (⟨String.ofList name, fields⟩, rest)

/-! ## Lines of a field -/

/-- What should be read of a member. -/
def Member.entry (m : Member) : FieldEntry := ⟨⟨m.identifier, m.view.name⟩, m.storedText⟩

theorem withoutLine_line {line : String} (h : OneLine line) (beginning rest : List Char) :
    withoutLine beginning (beginning ++ (line.toList ++ '\n' :: rest)) = rest := by
  rw [withoutLine, after?_append]
  simp only [cutFirst_append h, Option.map_some, Option.getD_some]

theorem withoutLine_of_none {beginning text : List Char} (h : after? beginning text = none) :
    withoutLine beginning text = text := by
  rw [withoutLine, h]

theorem readLiteral_escapedChar (c : Char) (rest : List Char) :
    readLiteral (escapedChar c ++ rest) =
      (readLiteral rest).map fun (text, after) => (c :: text, after) := by
  by_cases hbackslash : c = '\\'
  · subst hbackslash
    rfl
  · by_cases hquote : c = '"'
    · subst hquote
      rfl
    · have hself : escapedChar c = [c] := by simp [escapedChar, hbackslash, hquote]
      rw [hself, List.singleton_append, readLiteral]
      · exact hquote
      · exact fun h _ => hbackslash h
      · exact fun _ _ h _ => hbackslash h

/-- Escaping is undone, whatever the text is. -/
theorem readLiteral_escaped (text rest : List Char) :
    readLiteral (text.flatMap escapedChar ++ '"' :: rest) = some (text, rest) := by
  induction text with
  | nil => rfl
  | cons c text ih =>
    rw [List.flatMap_cons, List.append_assoc, readLiteral_escapedChar, ih, Option.map_some]

theorem toList_indented_append (lines others : List String) :
    (indented 1 (lines ++ others)).toList = (indented 1 lines).toList ++ (indented 1 others).toList := by
  rw [indented, List.map_append, String.join_append, String.toList_append]
  rfl

theorem toList_indented_singleton (line : String) :
    (indented 1 [line]).toList = indent ++ (line.toList ++ ['\n']) := by
  simp [indented, indent, String.join]

/-- Lines that leave a beginning after `start` are passed over when it is looked for. -/
theorem after?_indented (start : List Char) {beginning text : List Char} {c : Char}
    {lines : List String}
    (hlines : ∀ line ∈ lines, ∃ d more, line.toList = start ++ d :: more ∧ c ≠ d)
    (h : after? (indent ++ (start ++ c :: beginning)) text = none) :
    after? (indent ++ (start ++ c :: beginning)) ((indented 1 lines).toList ++ text) = none := by
  cases lines with
  | nil => exact h
  | cons line lines =>
    obtain ⟨d, more, hline, hne⟩ := hlines line List.mem_cons_self
    have htext : (indented 1 (line :: lines)).toList ++ text = indent ++ (start ++
        d :: (more ++ '\n' :: ((indented 1 lines).toList ++ text))) := by
      rw [← List.singleton_append, toList_indented_append, toList_indented_singleton, hline]
      simp only [List.append_assoc, List.cons_append, List.nil_append]
    rw [htext, after?_append_append]
    exact after?_of_ne hne start beginning _

namespace Member

/-- The comment in front of a field. -/
def commentLines (m : Member) : List String :=
  (m.view.defaultValue.map fun d => "/// Default: `" ++ Json.compact d ++ "`.").toList

/-- The attribute with the name in data. -/
def renameLines (m : Member) : List String :=
  if m.identifier = m.view.name then [] else ["#[serde(rename = " ++ quoted m.view.name ++ ")]"]

/-- The attribute of a field that may be missing. -/
def optionalLines (m : Member) : List String :=
  if m.optional then ["#[serde(default, skip_serializing_if = \"Option::is_none\")]"] else []

/-- The line with the identifier and the type. -/
def fieldLine (m : Member) : String := m.identifier ++ ": " ++ m.storedText ++ ","

theorem toList_lines (m : Member) : (indented 1 m.lines).toList =
    (indented 1 m.commentLines).toList ++ ((indented 1 m.renameLines).toList ++
      ((indented 1 m.optionalLines).toList ++ (indented 1 [m.fieldLine]).toList)) := by
  have hlines : m.lines = m.commentLines ++ (m.renameLines ++ (m.optionalLines ++ [m.fieldLine])) := by
    rw [← List.append_assoc, ← List.append_assoc]
    rfl
  rw [hlines, toList_indented_append, toList_indented_append, toList_indented_append]

theorem toList_fieldLine (m : Member) (rest : List Char) : (indented 1 [m.fieldLine]).toList ++ rest =
    indent ++ (m.identifier.toList ++ ':' :: ((" " ++ m.storedText ++ ",\n").toList ++ rest)) := by
  rw [toList_indented_singleton]
  simp [fieldLine]

variable {m : Member} {text : List Char}

theorem withoutLine_commentLines (h : after? (indent ++ "///".toList) text = none) :
    withoutLine (indent ++ "///".toList) ((indented 1 m.commentLines).toList ++ text) = text := by
  rw [commentLines]
  cases m.view.defaultValue with
  | none => exact withoutLine_of_none h
  | some d =>
    have hline : OneLine (" Default: `" ++ Json.compact d ++ "`.") :=
      (OneLine.append (by decide) (Json.oneLine_compact d)).append (by decide)
    have htext : (indented 1 ["/// Default: `" ++ Json.compact d ++ "`."]).toList ++ text =
        (indent ++ "///".toList) ++
          ((" Default: `" ++ Json.compact d ++ "`.").toList ++ '\n' :: text) := by
      rw [toList_indented_singleton]
      simp
    exact htext ▸ withoutLine_line hline _ text

theorem withoutLine_optionalLines (h : after? (indent ++ "#[".toList) text = none) :
    withoutLine (indent ++ "#[".toList) ((indented 1 m.optionalLines).toList ++ text) = text := by
  rw [optionalLines]
  cases m.optional with
  | false => exact withoutLine_of_none h
  | true =>
    have hline : OneLine "serde(default, skip_serializing_if = \"Option::is_none\")]" := by decide
    exact withoutLine_line hline (indent ++ "#[".toList) text

theorem readRename_renameLines
    (h : after? (indent ++ "#[serde(rename = \"".toList) text = none) :
    readRename ((indented 1 m.renameLines).toList ++ text) =
      some (if m.identifier = m.view.name then none else some m.view.name.toList, text) := by
  rw [renameLines]
  split
  · have hnone : readRename text = some (none, text) := by rw [readRename, h]
    exact hnone
  · have htext : (indented 1 ["#[serde(rename = " ++ quoted m.view.name ++ ")]"]).toList ++ text =
        (indent ++ "#[serde(rename = \"".toList) ++
          (m.view.name.toList.flatMap escapedChar ++ '"' :: (")]\n".toList ++ text)) := by
      rw [toList_indented_singleton]
      simp [quoted]
    rw [htext, readRename, after?_append]
    simp only [readLiteral_escaped, after?_append, Option.bind_eq_bind, Option.bind_some,
      Option.pure_def]

theorem exists_of_mem_renameLines {line : String} (h : line ∈ m.renameLines) :
    ∃ more, line.toList = '#' :: more := by
  rw [renameLines] at h
  split at h
  · cases h
  · rw [List.mem_singleton.mp h, String.append_assoc, String.toList_append]
    exact ⟨_, rfl⟩

theorem exists_of_mem_optionalLines {line : String} (h : line ∈ m.optionalLines) :
    ∃ more, line.toList = "#[serde(".toList ++ 'd' :: more := by
  rw [optionalLines] at h
  split at h
  · rw [List.mem_singleton.mp h]
    exact ⟨_, rfl⟩
  · cases h

/-- The line of a field starts with a letter, so nothing else is taken for it. -/
theorem after?_fieldLine (h : IsIdentifier m.identifier) {d : Char} (hd : d.isLower = false)
    (beginning rest : List Char) :
    after? (indent ++ d :: beginning) ((indented 1 [m.fieldLine]).toList ++ rest) = none := by
  obtain ⟨⟨⟨c, word, hword, hc⟩, -⟩, -⟩ := h
  have hne : d ≠ c := by
    rintro rfl
    rw [hd] at hc
    cases hc
  rw [toList_fieldLine, hword]
  exact after?_of_ne hne indent beginning _

theorem after?_rename (h : IsIdentifier m.identifier) (rest : List Char) :
    after? (indent ++ "#[serde(rename = \"".toList)
      ((indented 1 m.optionalLines).toList ++ ((indented 1 [m.fieldLine]).toList ++ rest)) = none := by
  have hmark : "#[serde(rename = \"".toList = "#[serde(".toList ++ 'r' :: "ename = \"".toList := rfl
  rw [hmark]
  refine after?_indented "#[serde(".toList (fun line hline => ?_) (after?_fieldLine h rfl _ rest)
  obtain ⟨more, hmore⟩ := exists_of_mem_optionalLines hline
  exact ⟨'d', more, hmore, by decide⟩

theorem after?_comment (h : IsIdentifier m.identifier) (rest : List Char) :
    after? (indent ++ "///".toList) ((indented 1 m.renameLines).toList ++
      ((indented 1 m.optionalLines).toList ++ ((indented 1 [m.fieldLine]).toList ++ rest))) = none := by
  refine after?_indented [] (fun line hline => ?_)
    (after?_indented [] (fun line hline => ?_) (after?_fieldLine h rfl _ rest))
  · obtain ⟨more, hmore⟩ := exists_of_mem_renameLines hline
    exact ⟨'#', more, hmore, by decide⟩
  · obtain ⟨more, hmore⟩ := exists_of_mem_optionalLines hline
    exact ⟨'#', _, hmore, by decide⟩

/-- Every field is read with its identifier and its name, whatever its type is. -/
theorem readFieldName_lines (h : IsIdentifier m.identifier) (rest : List Char) :
    readFieldName ((indented 1 m.lines).toList ++ rest) =
      some (⟨m.identifier, m.view.name⟩, (" " ++ m.storedText ++ ",\n").toList ++ rest) := by
  have hcolon : ':' ∉ m.identifier.toList := fun hmem => by cases h.1.2 _ hmem
  have hname : String.ofList
      ((if m.identifier = m.view.name then none else some m.view.name.toList).getD
        m.identifier.toList) = m.view.name := by
    split
    next hsame => rw [Option.getD_none, String.ofList_toList, hsame]
    · rw [Option.getD_some, String.ofList_toList]
  -- Each part of the reader passes over the lines of its kind and takes no other for one of them.
  rw [toList_lines, List.append_assoc, List.append_assoc, List.append_assoc, readFieldName,
    withoutLine_commentLines (after?_comment h rest), readRename_renameLines (after?_rename h rest)]
  simp only [Option.bind_eq_bind, Option.bind_some, Option.pure_def,
    withoutLine_optionalLines (after?_fieldLine h rfl _ rest)]
  rw [toList_fieldLine, after?_append, Option.bind_some, cutFirst_append hcolon, Option.bind_some,
    hname, String.ofList_toList]

/-- A field whose type is on one line is read with its type. -/
theorem readEntry_lines (h : IsIdentifier m.identifier) (htype : OneLine m.storedText)
    (rest : List Char) :
    readEntry ((indented 1 m.lines).toList ++ rest) = some (m.entry, rest) := by
  have htext : (" " ++ m.storedText ++ ",\n").toList ++ rest =
      [' '] ++ ((m.storedText ++ ",").toList ++ '\n' :: rest) := by simp
  have hcut := cutFirst_append (htype.append (by decide : OneLine ",")) rest
  have hcomma : before? [','] (m.storedText ++ ",").toList = some m.storedText.toList := by
    rw [String.toList_append]
    exact before?_append _ _
  rw [readEntry, readFieldName_lines h, htext]
  simp only [Option.bind_eq_bind, Option.bind_some]
  rw [after?_append, Option.bind_some, hcut, Option.bind_some, hcomma, Option.bind_some,
    String.ofList_toList]
  rfl

end Member

/-! ## Fields of a struct -/

theorem readFields_members {members : List Member}
    (h : ∀ m ∈ members, IsIdentifier m.identifier ∧ OneLine m.storedText) (rest : List Char) :
    readFields ((String.join (members.map fun m => indented 1 m.lines)).toList ++
      '\x7d' :: '\n' :: rest) = some (members.map Member.entry, rest) := by
  induction members with
  | nil =>
    rw [readFields_eq]
    rfl
  | cons m members ih =>
    obtain ⟨⟨hidentifier, htype⟩, hmembers⟩ := List.forall_mem_cons.mp h
    rw [List.map_cons, String.join_cons, String.toList_append, List.append_assoc, readFields_eq,
      m.readEntry_lines hidentifier htype]
    dsimp only
    rw [ih hmembers, Option.map_some, List.map_cons]

/-! ## Types on one line -/

variable {names : TypeNames}

/-- A number, or `Type`, behind the name of a class stays on its line. -/
theorem oneLine_of_mem_typeWords {isReserved : String → Bool} {used : List String}
    {ds : List DefinitionView} (hclass : ∀ d ∈ ds, OneLine d.className) :
    ∀ word ∈ typeWords (nameTypes isReserved used ds), OneLine word := by
  intro word hword
  obtain ⟨d, hd, hname⟩ := exists_of_mem_typeWords hword
  have hbase : OneLine (baseName isReserved d) := by
    rw [baseName]
    split
    · exact (hclass d hd).append (by decide)
    · exact hclass d hd
  rcases hname with hname | ⟨n, hname⟩
  · rwa [hname]
  · rw [hname]
    have hdigits : '\n' ∉ Decimal.digits n :=
      fun h => absurd (Decimal.isDigit_of_mem_digits h) (by decide)
    exact hbase.append (.ofList hdigits)

theorem oneLine_of_isTypeName {word : String} (h : Naming.isTypeName word.toList) : OneLine word := by
  intro hmem
  rcases (Naming.isTypeName_iff.mp h).2 _ hmem with hline | hline
  · cases hline
  · cases hline

theorem oneLine_structName (hnames : ∀ word ∈ typeWords names, OneLine word) (name : String) :
    OneLine (structName names name) := by
  rw [structName]
  cases h : names.lookup name with
  | none => decide
  | some word => exact hnames word (List.mem_map_of_mem (mem_of_lookup h))

theorem oneLine_text (hnames : ∀ word ∈ typeWords names, OneLine word) :
    (t : TypeExpr) → OneLine (MemberType.ofType names t).text
  | .scalar kind => by
    have hscalar : OneLine (MemberType.ofScalar kind).text := by cases kind <;> decide
    exact hscalar
  | .external _ | .union _ => by
    have hvalue : OneLine "Value" := by decide
    exact hvalue
  | .definition name => by
    rw [text_definition]
    exact oneLine_structName hnames name
  | .list element => (OneLine.append (by decide) (oneLine_text hnames element)).append (by decide)
  | .map element => (OneLine.append (by decide) (oneLine_text hnames element)).append (by decide)

theorem oneLine_storedText (hnames : ∀ word ∈ typeWords names, OneLine word) {used : List String}
    {fs : List FieldView} {m : Member} (h : m ∈ Member.ofFields names used fs) :
    OneLine m.storedText := by
  obtain ⟨f, -, identifier, rfl⟩ := Member.exists_of_mem_ofFields h
  have htext := oneLine_text hnames f.type
  rw [Member.storedText]
  split
  · exact (OneLine.append (by decide) htext).append (by decide)
  · exact htext

/-! ## Structs -/

/-- The comment about the parent is passed over. -/
theorem withoutLine_parent {parent : Option String} (h : ∀ p ∈ parent, OneLine p)
    {text : List Char} (htext : after? "///".toList text = none) :
    withoutLine "///".toList (((parent.map fun p =>
      "/// Extends [`" ++ p ++ "`]; inherited fields are inlined.\n").getD "").toList ++ text) =
        text := by
  cases parent with
  | none => exact withoutLine_of_none htext
  | some p =>
    have hline : OneLine (" Extends [`" ++ p ++ "`]; inherited fields are inlined.") :=
      (OneLine.append (by decide) (h p rfl)).append (by decide)
    have hsplit : ("/// Extends [`" ++ p ++ "`]; inherited fields are inlined.\n").toList ++ text =
        "///".toList ++
          ((" Extends [`" ++ p ++ "`]; inherited fields are inlined.").toList ++ '\n' :: text) := by
      simp
    exact hsplit ▸ withoutLine_line hline _ text

/-- What should be read of a struct. -/
def Struct.entry (s : Struct) : StructEntry := ⟨s.name, s.members.map Member.entry⟩

/-- A struct is read up to its methods if the names of types are on one line. -/
theorem readStruct_text {s : Struct} (hname : OneLine s.name) (hparent : ∀ p ∈ s.parent, OneLine p)
    (hmembers : ∀ m ∈ s.members, IsIdentifier m.identifier ∧ OneLine m.storedText)
    (rest : List Char) :
    readStruct (s.text.toList ++ rest) = some (s.entry, s.block.toList ++ rest) := by
  have htext : s.text.toList ++ rest =
      ((s.parent.map fun p =>
        "/// Extends [`" ++ p ++ "`]; inherited fields are inlined.\n").getD "").toList ++
        ("#[".toList ++
          ("derive(Debug, Clone, Default, PartialEq, Serialize, Deserialize)]".toList ++ '\n' ::
            ("pub struct ".toList ++ ((s.name ++ " \x7b").toList ++ '\n' ::
              ((String.join (s.members.map fun m => indented 1 m.lines)).toList ++
                '\x7d' :: '\n' :: (s.block.toList ++ rest)))))) := by
    simp [Struct.text, Struct.block]
  have hline : OneLine (s.name ++ " \x7b") := hname.append (by decide)
  have hbefore : before? " \x7b".toList (s.name ++ " \x7b").toList = some s.name.toList := by
    rw [String.toList_append]
    exact before?_append _ _
  rw [htext, readStruct, withoutLine_parent hparent rfl, withoutLine_line (by decide), after?_append]
  simp only [Option.bind_eq_bind, Option.bind_some]
  rw [cutFirst_append hline, Option.bind_some, hbefore, Option.bind_some,
    readFields_members hmembers, Option.bind_some, String.ofList_toList]
  rfl

/-- The printed structs of a view have a member for every field of their definition, in order. The
identifiers are all different, in snake case and no words of the language, and each member is
printed so that its identifier and the name of its field are read. Where the names of classes are
on one line, the printed structs are read from end to end, with the types of their fields. -/
theorem structs_keep_names (v : ViewModel) :
    List.Forall₂ (fun d s =>
        Within s.text (write v) ∧
        s.members.map (·.view) = d.fields ∧
        (s.members.map (·.identifier)).Nodup ∧
        (∀ m ∈ s.members, IsIdentifier m.identifier ∧
          readFieldName (indented 1 m.lines).toList =
            some (⟨m.identifier, m.view.name⟩, (" " ++ m.storedText ++ ",\n").toList)) ∧
        ((∀ e ∈ v.definitions, OneLine e.className) →
          readStruct s.text.toList =
            some (⟨s.name, s.members.map fun m => ⟨⟨m.identifier, m.view.name⟩, m.storedText⟩⟩,
              s.block.toList)))
      v.definitions (structs v) := by
  rw [structs, List.forall₂_map_right_iff, List.forall₂_same]
  intro d hd
  have hidentifiers : ∀ m ∈ (Struct.ofDefinition
      (nameTypes reservedWords.contains [] v.definitions) d).members, IsIdentifier m.identifier :=
    fun m hm => Member.isIdentifier_of_mem_ofFields hm
  refine ⟨within_write (List.mem_map_of_mem hd), Member.map_view_ofFields _ _ _,
    (Member.identifiers_fresh _ _ _).1, ?_, ?_⟩
  · intro m hm
    have hname := m.readFieldName_lines (hidentifiers m hm) []
    rw [List.append_nil, List.append_nil] at hname
    exact ⟨hidentifiers m hm, hname⟩
  · intro hclasses
    have hnames : ∀ word ∈ typeWords (nameTypes reservedWords.contains [] v.definitions),
        OneLine word := oneLine_of_mem_typeWords hclasses
    have hparent : ∀ p ∈ (Struct.ofDefinition
        (nameTypes reservedWords.contains [] v.definitions) d).parent, OneLine p := by
      intro p hp
      obtain ⟨name, -, rfl⟩ := Option.map_eq_some_iff.mp hp
      exact oneLine_structName hnames name
    have hread := readStruct_text (oneLine_structName hnames d.name) hparent
      (fun m hm => ⟨hidentifiers m hm, oneLine_storedText hnames hm⟩) []
    rw [List.append_nil, List.append_nil] at hread
    exact hread

/-- Names of fields that have the same words, are words of the language, start with a digit, have no
letters or need escapes. -/
def oddNames : Declarations := Catalogue.ofList
  [("Odd", ⟨none, false, Catalogue.ofList [("createdAt", .ofType "int"),
    ("created_at", .ofType "?int"), ("type", .ofType "string"), ("2fa", .ofType "bool"),
    ("--", .ofType "mixed"), ("a\"b\\", .ofType "string[]"), ("plain", .ofType "float")]⟩)]

theorem structs_keep_names_odd : ∃ v, ViewModel.ofDeclarations oddNames = .ok v ∧
    (∀ e ∈ v.definitions, OneLine e.className) ∧
    (structs v).map (fun s => (readStruct s.text.toList).map Prod.fst) =
      [some ⟨"Odd", [⟨⟨"created_at", "createdAt"⟩, "Option<i64>"⟩,
        ⟨⟨"created_at2", "created_at"⟩, "Option<i64>"⟩, ⟨⟨"type_", "type"⟩, "Option<String>"⟩,
        ⟨⟨"field_2fa", "2fa"⟩, "Option<bool>"⟩, ⟨⟨"field", "--"⟩, "Option<Value>"⟩,
        ⟨⟨"a_b", "a\"b\\"⟩, "Option<Vec<String>>"⟩, ⟨⟨"plain", "plain"⟩, "Option<f64>"⟩]⟩] := by
  obtain ⟨v, h, hentries⟩ : ∃ v, ViewModel.ofDeclarations oddNames = .ok v ∧
      (structs v).map Struct.entry =
        [⟨"Odd", [⟨⟨"created_at", "createdAt"⟩, "Option<i64>"⟩,
          ⟨⟨"created_at2", "created_at"⟩, "Option<i64>"⟩, ⟨⟨"type_", "type"⟩, "Option<String>"⟩,
          ⟨⟨"field_2fa", "2fa"⟩, "Option<bool>"⟩, ⟨⟨"field", "--"⟩, "Option<Value>"⟩,
          ⟨⟨"a_b", "a\"b\\"⟩, "Option<Vec<String>>"⟩, ⟨⟨"plain", "plain"⟩, "Option<f64>"⟩]⟩] :=
    exists_ok_of_decide (by decide +kernel)
  have hclasses : ∀ e ∈ v.definitions, OneLine e.className := fun e he =>
    oneLine_of_isTypeName ((ViewModel.closed_of_ofDeclarations h).classes e he)
  have hread : (structs v).map (fun s => (readStruct s.text.toList).map Prod.fst) =
      ((structs v).map Struct.entry).map some := by
    rw [List.map_map]
    refine List.map_congr_left fun s hs => ?_
    obtain ⟨d, -, -, -, -, -, hread⟩ :=
      exists_of_forall₂_left (List.Forall₂.flip (structs_keep_names v)) s hs
    rw [hread hclasses]
    rfl
  exact ⟨v, h, hclasses, by rw [hread, hentries, List.map_singleton]⟩

end Structs

end RecordDefinitions
