import RecordDefinitions.Proofs.Generation.UserTexts

/-!
# Files of interfaces

A printed file is read back as a whole: line comments are passed over, and everything else has to
be interfaces. The file for a view is the text of what is read of its interfaces, and it is read so
if and only if all texts of the user stay in their places.
-/

namespace RecordDefinitions.Interfaces

open Generation Text

/-! ## Reader -/

/-- The text behind the blanks, line ends and line comments that it starts with. -/
def skipNotes (text : List Char) : List Char :=
  match _h : after? ['/', '/'] (skip text) with
  | none => skip text
  | some line => skipNotes (line.dropWhile (· != '\n'))
termination_by text.length
decreasing_by
  have hlength := congrArg List.length (after?_eq_some_iff.mp _h)
  have := length_skip_le text
  have := (List.dropWhile_sublist (· != '\n') (l := line)).length_le
  rw [List.length_append, List.length_cons, List.length_singleton] at hlength
  omega

theorem skipNotes_eq (text : List Char) : skipNotes text =
    match after? ['/', '/'] (skip text) with
    | none => skip text
    | some line => skipNotes (line.dropWhile (· != '\n')) := by
  rw [skipNotes]
  split
  next hnone => rw [hnone]
  next line hline => rw [hline]

theorem length_skipNotes_le (text : List Char) : (skipNotes text).length ≤ text.length := by
  induction text using skipNotes.induct with
  | case1 text hnone =>
    rw [skipNotes_eq, hnone]
    exact length_skip_le text
  | case2 text line hline ih =>
    rw [skipNotes_eq, hline]
    have := length_of_after? hline
    have := length_skip_le text
    have := (List.dropWhile_sublist (· != '\n') (l := line)).length_le
    dsimp only
    omega

theorem length_of_readMembers {text after : List Char} {members : List MemberEntry}
    (h : readMembers text = some (members, after)) : after.length ≤ text.length := by
  induction text using readMembers.induct generalizing members with
  | case1 text rest hclose =>
    rw [readMembers_eq, hclose] at h
    cases h
    exact (length_of_after? hclose).trans (length_skip_le text)
  | case2 text hopen hnone =>
    rw [readMembers_eq, hopen, hnone] at h
    cases h
  | case3 text hopen member rest hmember ih =>
    rw [readMembers_eq, hopen, hmember] at h
    obtain ⟨⟨others, last⟩, hothers, heq⟩ := Option.map_eq_some_iff.mp h
    cases heq
    exact (ih hothers).trans (length_of_readMember hmember).le

theorem length_of_readNames {text after : List Char} {names : List String}
    (h : readNames text = some (names, after)) : after.length ≤ text.length := by
  induction text using readNames.induct generalizing names with
  | case1 text hnone =>
    rw [readNames_eq, hnone] at h
    cases h
  | case2 text name rest hname others hothers ih =>
    rw [readNames_eq, hname, Option.bind_some] at h
    simp only [hothers] at h
    obtain ⟨⟨more, last⟩, hmore, heq⟩ := Option.map_eq_some_iff.mp h
    cases heq
    have := ih hmore
    have := length_of_after? hothers
    have := length_skip_le rest
    have := length_of_readQuoted hname
    omega
  | case3 text name rest hname hlast =>
    rw [readNames_eq, hname, Option.bind_some] at h
    simp only [hlast] at h
    obtain ⟨last, hclose, heq⟩ := Option.map_eq_some_iff.mp h
    cases heq
    exact (length_of_after? hclose).trans (length_of_readQuoted hname).le

theorem length_of_readName {text after : List Char} {name : String}
    (h : readName text = some (name, after)) : after.length ≤ text.length := by
  rw [readName] at h
  split at h
  · cases h
  · cases h
    exact (List.dropWhile_sublist _).length_le.trans (List.dropWhile_sublist _).length_le

theorem length_of_readHeritage {text after : List Char} {parent : Option (String × List String)}
    (h : readHeritage text = some (parent, after)) : after.length ≤ text.length := by
  unfold readHeritage at h
  split at h
  next rest hrest =>
    obtain ⟨⟨name, afterName⟩, hname, h⟩ := Option.bind_eq_some_iff.mp h
    obtain ⟨afterComma, hcomma, h⟩ := Option.bind_eq_some_iff.mp h
    obtain ⟨⟨names, last⟩, hnames, h⟩ := Option.bind_eq_some_iff.mp h
    cases h
    have := length_of_after? hrest
    have := length_of_readName hname
    have := length_of_after? hcomma
    have := length_of_readNames hnames
    omega
  · split at h
    next rest hrest =>
      obtain ⟨⟨name, last⟩, hname, h⟩ := Option.bind_eq_some_iff.mp h
      cases h
      exact (length_of_readName hname).trans (length_of_after? hrest)
    · cases h
      exact Nat.le_refl _

theorem length_of_readInterface {text after : List Char} {i : InterfaceEntry}
    (h : readInterface text = some (i, after)) : after.length < text.length := by
  obtain ⟨start, hstart, h⟩ := Option.bind_eq_some_iff.mp h
  obtain ⟨⟨name, afterName⟩, hname, h⟩ := Option.bind_eq_some_iff.mp h
  obtain ⟨⟨parent, afterParent⟩, hparent, h⟩ := Option.bind_eq_some_iff.mp h
  obtain ⟨body, hbody, h⟩ := Option.bind_eq_some_iff.mp h
  obtain ⟨⟨members, last⟩, hmembers, h⟩ := Option.bind_eq_some_iff.mp h
  cases h
  have hlength := congrArg List.length (after?_eq_some_iff.mp hstart)
  have hmark : "export interface ".toList.length = 17 := rfl
  have := length_of_readName hname
  have := length_of_readHeritage hparent
  have := length_skip_le afterParent
  have := length_of_after? hbody
  have := length_of_readMembers hmembers
  rw [List.length_append, hmark] at hlength
  dsimp only at *
  omega

/-- The interfaces of a file. -/
def readFile (text : List Char) : Option (List InterfaceEntry) :=
  if skipNotes text = [] then some []
  else
    match _h : readInterface (skipNotes text) with
    | none => none
    | some (i, rest) => (readFile rest).map (i :: ·)
termination_by text.length
decreasing_by
  have := length_of_readInterface _h
  have := length_skipNotes_le text
  omega

theorem readFile_eq (text : List Char) : readFile text =
    if skipNotes text = [] then some []
    else (readInterface (skipNotes text)).bind fun (i, rest) => (readFile rest).map (i :: ·) := by
  rw [readFile]
  split
  · rfl
  · split
    next hnone =>
      rw [hnone]
      rfl
    next i rest hread =>
      rw [hread]
      rfl

/-! ## Text -/

/-- How a member is written. -/
def MemberEntry.text (m : MemberEntry) : String :=
  ((m.comment.map fun body => "  /*" ++ body ++ "*/\n").getD "") ++ "  "
    ++ (if m.readonly then "readonly " else "") ++ propertyName m.name
    ++ (if m.optional then "?" else "") ++ ": " ++ m.type ++ ";\n"

/-- How a parent is written. -/
def parentText : Option (String × List String) → String
  | none => ""
  | some (parent, names) =>
    if names.isEmpty then " extends " ++ parent
    else " extends Omit<" ++ parent ++ ", " ++ " | ".intercalate (names.map quoted) ++ ">"

/-- How an interface is written. -/
def InterfaceEntry.text (i : InterfaceEntry) : String :=
  "export interface " ++ i.name ++ parentText i.parent ++ " \x7b\n"
    ++ String.join (i.members.map MemberEntry.text) ++ "\x7d"

/-- How a file is written. -/
def fileText (file : List InterfaceEntry) : String :=
  banner "TypeScript"
    ++ (if file.isEmpty then emptyNote
        else "\n" ++ "\n\n".intercalate (file.map InterfaceEntry.text) ++ "\n")

theorem Property.text_entry (p : Property) : p.entry.text = p.text := by
  have hcomment (notes : List String) :
      ((commentBody notes).map fun body => "  /*" ++ body ++ "*/\n").getD "" = comment notes := by
    match notes with
    | [] => rfl
    | [note] => simp [comment, commentBody, String.ext_iff]
    | first :: second :: others => simp [comment, commentBody, String.ext_iff]
  rw [MemberEntry.text, Property.text]
  simp only [Property.entry, hcomment]
  simp only [Property.typeText, String.append_assoc]
  rfl

theorem parentText_eq (parent : Option String) (omitted : List String) :
    parentText (parent.map fun parent => (parent, omitted)) = heritage parent omitted := by
  cases parent <;> rfl

theorem Interface.text_entry (i : Interface) : i.entry.text = i.text := by
  have hname : i.entry.name = i.name := rfl
  have hparent : parentText i.entry.parent = heritage i.parent i.omitted := parentText_eq _ _
  have hmembers : i.entry.members.map MemberEntry.text = i.members.map Property.text := by
    refine List.map_map.trans (List.map_congr_left fun p _ => ?_)
    exact p.text_entry
  unfold InterfaceEntry.text Interface.text
  rw [hname, hparent, hmembers]

theorem write_eq_fileText (v : ViewModel) :
    write v = fileText ((interfaces v).map Interface.entry) := by
  have htexts : ((interfaces v).map Interface.entry).map InterfaceEntry.text =
      (interfaces v).map Interface.text := by
    rw [List.map_map]
    exact List.map_congr_left fun i _ => i.text_entry
  have hempty : ((interfaces v).map Interface.entry).isEmpty = v.definitions.isEmpty := by
    rw [List.isEmpty_map, interfaces, List.isEmpty_map]
  rw [write, fileText, htexts, hempty]

/-! ## Reading a file back -/

theorem skipNotes_line {line : String} (h : '\n' ∉ line.toList) (rest : List Char) :
    skipNotes ('/' :: '/' :: (line.toList ++ '\n' :: rest)) = skipNotes ('\n' :: rest) := by
  have hmark : after? ['/', '/'] (skip ('/' :: '/' :: (line.toList ++ '\n' :: rest))) =
      some (line.toList ++ '\n' :: rest) := rfl
  have hline : ∀ c ∈ line.toList, (c != '\n') = true := fun c hc =>
    bne_iff_ne.mpr fun hnewline => h (hnewline ▸ hc)
  rw [skipNotes_eq, hmark]
  dsimp only
  rw [dropWhile_append_of_starts hline ⟨'\n', rest, rfl, rfl⟩]

theorem skipNotes_newline (text : List Char) : skipNotes ('\n' :: text) = skipNotes text := by
  have hskip : skip ('\n' :: text) = skip text := rfl
  rw [skipNotes_eq, skipNotes_eq text, hskip]

theorem readFile_newline (text : List Char) : readFile ('\n' :: text) = readFile text := by
  rw [readFile_eq, readFile_eq text, skipNotes_newline]

theorem readFile_banner (rest : List Char) :
    readFile ((banner "TypeScript").toList ++ rest) = readFile rest := by
  have hbanner : (banner "TypeScript").toList =
      '/' :: '/' :: (" Generated by dto-forge (TypeScript codegen).".toList ++ '\n' ::
        '/' :: '/' :: (" WARNING: This file is generated. Do not edit manually.".toList ++ ['\n'])) := by
    decide +kernel
  rw [readFile_eq, readFile_eq rest, hbanner]
  simp only [List.cons_append, List.append_assoc, List.nil_append]
  rw [skipNotes_line (by decide), skipNotes_newline, skipNotes_line (by decide), skipNotes_newline]

theorem skipNotes_text (i : Interface) (rest : List Char) :
    skipNotes (i.text.toList ++ rest) = i.text.toList ++ rest := by
  rw [toList_interfaceText, skipNotes_eq]
  rfl

theorem readFile_interface (i : Interface) (rest : List Char) :
    readFile (i.text.toList ++ rest) =
      (readInterface (i.text.toList ++ rest)).bind fun (i, rest) => (readFile rest).map (i :: ·) := by
  have hne : i.text.toList ++ rest ≠ [] := by
    rw [toList_interfaceText]
    exact List.cons_ne_nil _ _
  rw [readFile_eq, skipNotes_text, if_neg hne]

/-- Interfaces with empty lines between them are read as what they were printed from if and only if
all texts of the user stay in their places. -/
theorem readFile_intercalate_iff {is : List Interface} (hformed : ∀ i ∈ is, i.Formed) :
    readFile (("\n\n".intercalate (is.map Interface.text)).toList ++ ['\n']) =
      some (is.map Interface.entry) ↔ ∀ i ∈ is, i.Contained := by
  have hend : readFile ['\n'] = some [] := by
    rw [readFile_newline, readFile_eq, skipNotes_eq]
    rfl
  have hfirst {i : Interface} (hi : i.Formed) {rest : List Char} {entries : List InterfaceEntry} :
      readFile (i.text.toList ++ rest) = some (i.entry :: entries) ↔
        i.Contained ∧ readFile rest = some entries := by
    rw [readFile_interface]
    constructor
    · intro h
      obtain ⟨⟨first, after⟩, hread, h⟩ := Option.bind_eq_some_iff.mp h
      obtain ⟨others, hothers, heq⟩ := Option.map_eq_some_iff.mp h
      cases heq
      have hcontained := contained_of_readInterface hi hread
      rw [readInterface_text hi hcontained] at hread
      cases hread
      exact ⟨hcontained, hothers⟩
    · rintro ⟨hcontained, hothers⟩
      rw [readInterface_text hi hcontained]
      simp only [Option.bind_some, hothers, Option.map_some]
  induction is with
  | nil => exact iff_of_true hend nofun
  | cons i is ih =>
    obtain ⟨hi, his⟩ := List.forall_mem_cons.mp hformed
    cases is with
    | nil =>
      rw [List.map_singleton, String.intercalate_singleton, List.map_singleton, hfirst hi,
        List.forall_mem_singleton]
      exact and_iff_left hend
    | cons next is =>
      have htext : ("\n\n".intercalate ((i :: next :: is).map Interface.text)).toList ++ ['\n'] =
          i.text.toList ++ ('\n' :: '\n' ::
            (("\n\n".intercalate ((next :: is).map Interface.text)).toList ++ ['\n'])) := by
        rw [List.map_cons, List.map_cons, String.intercalate_cons_cons, ← List.map_cons,
          String.toList_append, String.toList_append]
        simp only [List.append_assoc]
        rfl
      have hentries : (i :: next :: is).map Interface.entry =
          i.entry :: (next :: is).map Interface.entry := rfl
      rw [htext, hentries, hfirst hi, readFile_newline, readFile_newline, List.forall_mem_cons]
      exact and_congr_right' (ih his)

/-- What a file for a view says: its text is that of some interfaces, and it is read as these
interfaces if and only if all texts of the user stay in their places. -/
structure Says (v : ViewModel) (file : List InterfaceEntry) : Prop where
  text : write v = fileText file
  read : readFile (write v).toList = some file ↔
    ∀ d ∈ v.definitions, ∀ f ∈ Target.typescript.listed d, Contained f

theorem readFile_write_iff {v : ViewModel} (hv : v.Closed) :
    readFile (write v).toList = some ((interfaces v).map Interface.entry) ↔
      ∀ d ∈ v.definitions, ∀ f ∈ Target.typescript.listed d, Contained f := by
  have hnames := Target.isTypeName_typeNames hv .typescript
  have hformed : ∀ i ∈ interfaces v, i.Formed := by
    rw [interfaces, List.forall_mem_map]
    exact fun d _ => formed_ofDefinition hnames d
  have hcontained : (∀ i ∈ interfaces v, i.Contained) ↔
      ∀ d ∈ v.definitions, ∀ f ∈ Target.typescript.listed d, Contained f := by
    rw [interfaces, List.forall_mem_map]
    simp only [contained_ofDefinition_iff]
  rw [write, String.toList_append, readFile_banner, ← hcontained]
  cases hdefinitions : v.definitions with
  | nil =>
    have hnone : interfaces v = [] := by rw [interfaces, hdefinitions, List.map_nil]
    rw [hnone]
    refine iff_of_true ?_ fun d hd => absurd hd List.not_mem_nil
    have hnote : emptyNote.toList =
        '/' :: '/' :: (" No definitions found.".toList ++ '\n' :: []) := rfl
    rw [List.isEmpty_nil, if_pos rfl, readFile_eq, hnote, skipNotes_line (by decide),
      skipNotes_newline, skipNotes_eq]
    rfl
  | cons d ds =>
    have htext : ("\n" ++ "\n\n".intercalate ((interfaces v).map Interface.text) ++ "\n").toList =
        '\n' :: (("\n\n".intercalate ((interfaces v).map Interface.text)).toList ++ ['\n']) := by
      rw [String.append_assoc, String.toList_append, String.toList_append]
      rfl
    rw [List.isEmpty_cons, if_neg Bool.false_ne_true, htext, readFile_newline]
    exact readFile_intercalate_iff hformed

theorem says_interfaces {v : ViewModel} (hv : v.Closed) :
    Says v ((interfaces v).map Interface.entry) :=
  ⟨write_eq_fileText v, readFile_write_iff hv⟩

end RecordDefinitions.Interfaces
