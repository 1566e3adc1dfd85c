import RecordDefinitions.Proofs.Generation.MethodTexts

/-!
# Files of structs

A printed file is read back as a whole: behind its head, which ends with the first empty line, there
are structs, each with the block of its methods, and nothing else. Whatever notes, default values
and names of fields are, a file is read as what it was printed from.
-/

namespace RecordDefinitions.Structs

open Generation Text

/-! ## Reader -/

/-- What is read of a struct and of its methods. -/
structure TypeEntry where
  struct : StructEntry
  methods : List MethodEntry
deriving DecidableEq

/-- A struct with its methods, and what follows them. -/
def readItem (text : List Char) : Option (TypeEntry × List Char) := do
  let (struct, rest) ← readStruct text
  let (methods, rest) ← readBlock rest
  return (⟨struct, methods⟩, rest)

theorem length_of_readFields {text after : List Char} {fields : List FieldEntry}
    (h : readFields text = some (fields, after)) : after.length ≤ text.length := by
  induction text using readFields.induct generalizing fields with
  | case1 text hnone =>
    rw [readFields_eq, hnone] at h
    obtain ⟨rest, hrest, heq⟩ := Option.map_eq_some_iff.mp h
    cases heq
    exact length_of_after? hrest
  | case2 text entry rest hentry ih =>
    rw [readFields_eq, hentry] at h
    obtain ⟨⟨others, last⟩, hothers, heq⟩ := Option.map_eq_some_iff.mp h
    cases heq
    exact (ih hothers).trans (length_of_readEntry hentry).le

theorem length_of_readStruct {text after : List Char} {struct : StructEntry}
    (h : readStruct text = some (struct, after)) : after.length < text.length := by
  obtain ⟨header, hheader, h⟩ := Option.bind_eq_some_iff.mp h
  obtain ⟨⟨line, body⟩, hline, h⟩ := Option.bind_eq_some_iff.mp h
  obtain ⟨name, -, h⟩ := Option.bind_eq_some_iff.mp h
  obtain ⟨⟨fields, last⟩, hfields, h⟩ := Option.bind_eq_some_iff.mp h
  cases h
  have := length_withoutLine_le "///".toList text
  have := length_withoutLine_le "#[".toList (withoutLine "///".toList text)
  have := length_of_after? hheader
  have := length_of_cutFirst hline
  have := length_of_readFields hfields
  dsimp only at *
  omega

theorem length_of_readMethods {text after : List Char} {methods : List MethodEntry}
    (h : readMethods text = some (methods, after)) : after.length ≤ text.length := by
  induction text using readMethods.induct generalizing methods with
  | case1 text hnone =>
    rw [readMethods_eq, hnone] at h
    cases h
  | case2 text w rest hw others hothers ih =>
    rw [readMethods_eq, hw, Option.bind_some] at h
    simp only [hothers] at h
    obtain ⟨⟨more, last⟩, hmore, heq⟩ := Option.map_eq_some_iff.mp h
    cases heq
    have := ih hmore
    have := length_of_after? hothers
    have := length_of_readMethod hw
    omega
  | case3 text w rest hw hlast =>
    rw [readMethods_eq, hw, Option.bind_some] at h
    simp only [hlast] at h
    obtain ⟨last, hclose, heq⟩ := Option.map_eq_some_iff.mp h
    cases heq
    exact (length_of_after? hclose).trans (length_of_readMethod hw).le

theorem length_of_readBlock {text after : List Char} {methods : List MethodEntry}
    (h : readBlock text = some (methods, after)) : after.length ≤ text.length := by
  unfold readBlock at h
  split at h
  · cases h
    exact Nat.le_refl _
  next header hheader =>
    obtain ⟨⟨line, body⟩, hline, hmethods⟩ := Option.bind_eq_some_iff.mp h
    have := length_of_after? hheader
    have := length_of_cutFirst hline
    have := length_of_readMethods hmethods
    omega

theorem length_of_readItem {text after : List Char} {entry : TypeEntry}
    (h : readItem text = some (entry, after)) : after.length < text.length := by
  obtain ⟨⟨struct, rest⟩, hstruct, h⟩ := Option.bind_eq_some_iff.mp h
  obtain ⟨⟨methods, last⟩, hmethods, h⟩ := Option.bind_eq_some_iff.mp h
  cases h
  exact (length_of_readBlock hmethods).trans_lt (length_of_readStruct hstruct)

/-- Structs with empty lines between them, up to the end of the text. -/
def readItems (text : List Char) : Option (List TypeEntry) :=
  match _h : readItem text with
  | none => if text = [] then some [] else none
  | some (entry, rest) =>
    match _g : after? ['\n'] rest with
    | some others => (readItems others).map (entry :: ·)
    | none => if rest = [] then some [entry] else none
termination_by text.length
decreasing_by
  have := length_of_readItem _h
  have := length_of_after? _g
  omega

theorem readItems_of_readItem {text rest : List Char} {entry : TypeEntry}
    (h : readItem text = some (entry, rest)) : readItems text =
      match after? ['\n'] rest with
      | some others => (readItems others).map (entry :: ·)
      | none => if rest = [] then some [entry] else none := by
  rw [readItems]
  split
  next hnone =>
    rw [h] at hnone
    cases hnone
  next entry rest hsome =>
    rw [h] at hsome
    cases hsome
    split
    next others hothers => rw [hothers]
    next hnone => rw [hnone]

/-- The text behind the first empty line. -/
def behindHead (text : List Char) : List Char :=
  match _h : cutFirst '\n' text with
  | none => []
  | some (line, rest) => if line.isEmpty then rest else behindHead rest
termination_by text.length
decreasing_by exact length_of_cutFirst _h

/-- The structs of a file with their methods. -/
def readFile (text : List Char) : Option (List TypeEntry) := readItems (behindHead text)

/-! ## Structs -/

/-- What should be read of a struct and of its methods. -/
def Struct.item (s : Struct) : TypeEntry := ⟨s.entry, s.methods.map Method.entry⟩

theorem readItem_text {s : Struct} (hs : s.Formed) {rest : List Char}
    (hrest : after? "\nimpl ".toList rest = none) :
    readItem (s.text.toList ++ rest) = some (s.item, rest) := by
  have hmembers : ∀ m ∈ s.members, IsIdentifier m.identifier ∧ OneLine m.storedText :=
    fun m hm => ⟨(hs.members m hm).identifier, (hs.members m hm).oneLine_stored⟩
  rw [readItem, readStruct_text hs.name hs.parent hmembers]
  simp only [Option.bind_eq_bind, Option.bind_some, readBlock_block hs hrest]
  rfl

/-- A struct is not taken for a block of methods. -/
theorem after?_impl (s : Struct) (rest : List Char) :
    after? "\nimpl ".toList ('\n' :: (s.text.toList ++ rest)) = none := by
  rw [s.text_eq, Struct.declaration]
  simp only [String.toList_append, List.append_assoc]
  cases s.parent with
  | none => rfl
  | some p =>
    simp only [Option.map_some, Option.getD_some, String.toList_append, List.append_assoc]
    rfl

theorem readItems_nil : readItems [] = some [] := by
  rw [readItems]
  rfl

theorem readItems_intercalate {ss : List Struct} (h : ∀ s ∈ ss, s.Formed) :
    readItems ("\n".intercalate (ss.map Struct.text)).toList = some (ss.map Struct.item) := by
  induction ss with
  | nil => exact readItems_nil
  | cons s ss ih =>
    obtain ⟨hs, hss⟩ := List.forall_mem_cons.mp h
    cases ss with
    | nil =>
      have hnone : after? "\nimpl ".toList [] = none := rfl
      have hread := readItem_text hs hnone
      rw [List.append_nil] at hread
      rw [List.map_singleton, String.intercalate_singleton, readItems_of_readItem hread]
      rfl
    | cons next ss =>
      obtain ⟨more, hmore⟩ : ∃ more, ("\n".intercalate ((next :: ss).map Struct.text)).toList =
          next.text.toList ++ more := by
        cases ss with
        | nil =>
          rw [List.map_singleton, String.intercalate_singleton]
          exact ⟨[], (List.append_nil _).symm⟩
        | cons other ss =>
          rw [List.map_cons, List.map_cons, String.intercalate_cons_cons, String.append_assoc,
            String.toList_append]
          exact ⟨_, rfl⟩
      have htext : ("\n".intercalate ((s :: next :: ss).map Struct.text)).toList =
          s.text.toList ++ '\n' :: ("\n".intercalate ((next :: ss).map Struct.text)).toList := by
        rw [List.map_cons, List.map_cons, String.intercalate_cons_cons, ← List.map_cons,
          String.toList_append, String.toList_append, List.append_assoc]
        rfl
      have hline (text : List Char) : after? ['\n'] ('\n' :: text) = some text := rfl
      have hread := readItem_text hs (hmore ▸ after?_impl next more)
      rw [htext, readItems_of_readItem hread, hline]
      dsimp only
      rw [ih hss, Option.map_some, ← List.map_cons]

/-! ## Files -/

theorem behindHead_line {line : List Char} (hne : line ≠ []) (h : '\n' ∉ line) (rest : List Char) :
    behindHead (line ++ '\n' :: rest) = behindHead rest := by
  rw [behindHead]
  split
  next hnone =>
    rw [cutFirst_append h] at hnone
    cases hnone
  next first others hcut =>
    rw [cutFirst_append h] at hcut
    cases hcut
    exact if_neg (by simpa using hne)

theorem behindHead_lines {lines : List String} (h : ∀ line ∈ lines, line ≠ "" ∧ OneLine line)
    (rest : List Char) :
    behindHead ((String.join (lines.map (· ++ "\n"))).toList ++ rest) = behindHead rest := by
  induction lines with
  | nil => rfl
  | cons line lines ih =>
    obtain ⟨⟨hne, hline⟩, hlines⟩ := List.forall_mem_cons.mp h
    have htext : (String.join ((line :: lines).map (· ++ "\n"))).toList ++ rest =
        line.toList ++ '\n' :: ((String.join (lines.map (· ++ "\n"))).toList ++ rest) := by
      simp
    rw [htext, behindHead_line (by simpa using hne) hline, ih hlines]

theorem behindHead_newline (rest : List Char) : behindHead ('\n' :: rest) = rest := by
  rw [behindHead]
  rfl

theorem behindHead_nil : behindHead [] = [] := by
  rw [behindHead]
  rfl

/-- The lines in front of the first empty one. -/
def headLines (value map : Bool) : List String :=
  ["// Generated by dto-forge (Rust codegen).",
    "// WARNING: This file is generated. Do not edit manually.",
    "use serde::\x7bDeserialize, Serialize\x7d;"]
    ++ (if value then ["use serde_json::Value;"] else [])
    ++ (if map then ["use std::collections::BTreeMap;"] else [])

theorem head_eq (types : List MemberType) : banner "Rust" ++ imports types =
    String.join ((headLines (types.any (·.usesValue)) (types.any (·.usesMap))).map (· ++ "\n")) := by
  have hlines (value map : Bool) : banner "Rust" ++ ("use serde::\x7bDeserialize, Serialize\x7d;\n"
      ++ (if value then "use serde_json::Value;\n" else "")
      ++ (if map then "use std::collections::BTreeMap;\n" else "")) =
        String.join ((headLines value map).map (· ++ "\n")) := by
    cases value <;> cases map <;> decide +kernel
  exact hlines _ _

/-- A printed file is read as its structs with all their methods. -/
theorem readFile_write {v : ViewModel} (hv : v.Closed) :
    readFile (write v).toList = some ((structs v).map Struct.item) := by
  rw [readFile, write]
  split
  next hempty =>
    have hnone : structs v = [] := by rw [structs, List.isEmpty_iff.mp hempty, List.map_nil]
    have hlines : banner "Rust" ++ emptyNote = String.join (["// Generated by dto-forge (Rust codegen).",
        "// WARNING: This file is generated. Do not edit manually.",
        "// No definitions found."].map (· ++ "\n")) := by
      decide +kernel
    have hnotes : ∀ line ∈ ["// Generated by dto-forge (Rust codegen).",
        "// WARNING: This file is generated. Do not edit manually.",
        "// No definitions found."], line ≠ "" ∧ OneLine line := by
      decide
    have hread := behindHead_lines hnotes []
    rw [List.append_nil, behindHead_nil] at hread
    rw [hlines, hread, readItems_nil, hnone, List.map_nil]
  next =>
    have hhead (value map : Bool) : ∀ line ∈ headLines value map, line ≠ "" ∧ OneLine line := by
      cases value <;> cases map <;> decide
    have hnewline (text : List Char) : "\n".toList ++ text = '\n' :: text := rfl
    dsimp only
    rw [← String.append_assoc, ← String.append_assoc, head_eq, String.toList_append,
      String.toList_append, List.append_assoc, hnewline, behindHead_lines (hhead _ _),
      behindHead_newline]
    exact readItems_intercalate fun s hs => formed_of_mem_structs hv hs

end RecordDefinitions.Structs
