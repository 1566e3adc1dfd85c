import RecordDefinitions.Proofs.Generation.DataNames
import RecordDefinitions.Proofs.Generation.Methods

/-!
# Methods read back

The block of methods behind a struct is read method by method: an attribute up to the quote that
ends its note, the name, the parameters and the result up to the marks behind them, and the body as
long as lines are indented twice. Whatever the notes are, what is read are all methods in their
order. So a block has a method twice if and only if two names in the data are the same.
-/

namespace RecordDefinitions.Structs

open Generation Text

/-! ## Reader -/

/-- The text behind the attribute of a method, if it has one. -/
def readNote (text : List Char) : Option (List Char) :=
  match after? (indent ++ "#[deprecated(note = \"".toList) text with
  | none => some text
  | some literal => do
    let (_, rest) ← readLiteral literal
    after? ")]\n".toList rest

/-- The lines of the body of a method, and what follows its closing brace. -/
def readBody (text : List Char) : Option (List String × List Char) :=
  match _h : after? (indent ++ indent) text with
  | none => (after? (indent ++ "\x7d\n".toList) text).map fun rest => ([], rest)
  | some start =>
    match _g : cutFirst '\n' start with
    | none => none
    | some (line, rest) =>
      (readBody rest).map fun (lines, rest) => (String.ofList line :: lines, rest)
termination_by text.length
decreasing_by
  have := length_of_after? _h
  have := length_of_cutFirst _g
  omega

/-- What is read of a method. -/
structure MethodEntry where
  name : String
  parameters : String
  result : String
  body : List String
deriving DecidableEq

/-- A method, and what follows it. -/
def readMethod (text : List Char) : Option (MethodEntry × List Char) := do
  let line ← after? (indent ++ "pub fn ".toList) (← readNote text)
  let (name, rest) ← cutFirst '(' line
  let (parameters, rest) ← cutFirst ')' rest
  let (line, rest) ← cutFirst '\n' (← after? " -> ".toList rest)
  let result ← before? " \x7b".toList line
  let (body, rest) ← readBody rest
  return (⟨String.ofList name, String.ofList parameters, String.ofList result, body⟩, rest)

theorem length_of_readNote {text after : List Char} (h : readNote text = some after) :
    after.length ≤ text.length := by
  unfold readNote at h
  split at h
  · cases h
    exact Nat.le_refl _
  next literal hliteral =>
    obtain ⟨⟨note, rest⟩, hnote, hlast⟩ := Option.bind_eq_some_iff.mp h
    have := length_of_after? hliteral
    have := length_of_readLiteral hnote
    have := length_of_after? hlast
    omega

theorem readBody_eq (text : List Char) : readBody text =
    match after? (indent ++ indent) text with
    | none => (after? (indent ++ "\x7d\n".toList) text).map fun rest => ([], rest)
    | some start => (cutFirst '\n' start).bind fun (line, rest) =>
        (readBody rest).map fun (lines, rest) => (String.ofList line :: lines, rest) := by
  rw [readBody]
  split
  next hclose => rw [hclose]
  next hline =>
    rw [hline]
    dsimp only
    split
    next hnone =>
      rw [hnone]
      rfl
    next hcut =>
      rw [hcut]
      rfl

theorem length_of_readBody {text after : List Char} {lines : List String}
    (h : readBody text = some (lines, after)) : after.length ≤ text.length := by
  induction text using readBody.induct generalizing lines with
  | case1 text hclose =>
    rw [readBody_eq, hclose] at h
    obtain ⟨rest, hrest, heq⟩ := Option.map_eq_some_iff.mp h
    cases heq
    exact length_of_after? hrest
  | case2 text start hstart hcut =>
    rw [readBody_eq, hstart] at h
    simp only [hcut] at h
    cases h
  | case3 text start hstart line rest hcut ih =>
    rw [readBody_eq, hstart] at h
    simp only [hcut, Option.bind_some] at h
    obtain ⟨⟨others, last⟩, hothers, heq⟩ := Option.map_eq_some_iff.mp h
    cases heq
    have := length_of_after? hstart
    have := length_of_cutFirst hcut
    have := ih hothers
    omega

theorem length_of_readMethod {text after : List Char} {w : MethodEntry}
    (h : readMethod text = some (w, after)) : after.length < text.length := by
  obtain ⟨rest, hnote, h⟩ := Option.bind_eq_some_iff.mp h
  obtain ⟨line, hline, h⟩ := Option.bind_eq_some_iff.mp h
  obtain ⟨⟨name, afterName⟩, hname, h⟩ := Option.bind_eq_some_iff.mp h
  obtain ⟨⟨parameters, afterParameters⟩, hparameters, h⟩ := Option.bind_eq_some_iff.mp h
  obtain ⟨start, hstart, h⟩ := Option.bind_eq_some_iff.mp h
  obtain ⟨⟨result, body⟩, hresult, h⟩ := Option.bind_eq_some_iff.mp h
  obtain ⟨type, -, h⟩ := Option.bind_eq_some_iff.mp h
  obtain ⟨⟨lines, last⟩, hbody, h⟩ := Option.bind_eq_some_iff.mp h
  cases h
  have := length_of_readNote hnote
  have := length_of_after? hline
  have := length_of_cutFirst hname
  have := length_of_cutFirst hparameters
  have := length_of_after? hstart
  have := length_of_cutFirst hresult
  have := length_of_readBody hbody
  dsimp only at *
  omega

/-- Methods with empty lines between them, up to the closing brace, and what follows its line. -/
def readMethods (text : List Char) : Option (List MethodEntry × List Char) :=
  match _h : readMethod text with
  | none => none
  | some (w, rest) =>
    match _g : after? ['\n'] rest with
    | some others => (readMethods others).map fun (ws, rest) => (w :: ws, rest)
    | none => (after? "\x7d\n".toList rest).map fun rest => ([w], rest)
termination_by text.length
decreasing_by
  have := length_of_readMethod _h
  have := length_of_after? _g
  omega

/-- The methods in the block behind the fields of a struct, if there is one, and what follows it. -/
def readBlock (text : List Char) : Option (List MethodEntry × List Char) :=
  match after? "\nimpl ".toList text with
  | none => some ([], text)
  | some header => (cutFirst '\n' header).bind fun (_, body) => readMethods body

theorem readMethods_eq (text : List Char) : readMethods text =
    (readMethod text).bind fun (w, rest) =>
      match after? ['\n'] rest with
      | some others => (readMethods others).map fun (ws, rest) => (w :: ws, rest)
      | none => (after? "\x7d\n".toList rest).map fun rest => ([w], rest) := by
  rw [readMethods]
  split
  next hnone =>
    rw [hnone]
    rfl
  next w rest hw =>
    rw [hw, Option.bind_some]
    split
    next others hothers =>
      dsimp only
      rw [hothers]
    next hnone =>
      dsimp only
      rw [hnone]

/-! ## Methods -/

/-- The lines of a method are those of its attribute, its head and its body. -/
structure Method.Formed (w : Method) : Prop where
  attributes : w.attributes = [] ∨
    ∃ note, w.attributes = ["#[deprecated(note = " ++ quoted note ++ ")]"]
  name : '(' ∉ w.name.toList
  parameters : ')' ∉ w.parameters.toList
  result : OneLine w.result
  body : ∀ line ∈ w.body, OneLine line

variable {w : Method}

theorem toList_indented_two (line : String) (lines : List String) (rest : List Char) :
    (indented 2 (line :: lines)).toList ++ rest =
      indent ++ indent ++ (line.toList ++ '\n' :: ((indented 2 lines).toList ++ rest)) := by
  have hspaces : List.replicate (4 * 2) ' ' = indent ++ indent := rfl
  simp [indented, hspaces]

theorem readBody_lines {lines : List String} (h : ∀ line ∈ lines, OneLine line) (rest : List Char) :
    readBody ((indented 2 lines).toList ++ ((indented 1 ["\x7d"]).toList ++ rest)) =
      some (lines, rest) := by
  induction lines with
  | nil =>
    have hlast : after? (indent ++ indent) ((indented 1 ["\x7d"]).toList ++ rest) = none := rfl
    have htext : (indented 2 []).toList ++ ((indented 1 ["\x7d"]).toList ++ rest) =
        (indented 1 ["\x7d"]).toList ++ rest := rfl
    have hclose : after? (indent ++ "\x7d\n".toList) ((indented 1 ["\x7d"]).toList ++ rest) =
        some rest := after?_append (indent ++ "\x7d\n".toList) rest
    rw [htext, readBody_eq, hlast]
    dsimp only
    rw [hclose, Option.map_some]
  | cons line lines ih =>
    obtain ⟨hline, hlines⟩ := List.forall_mem_cons.mp h
    rw [toList_indented_two, readBody_eq, after?_append]
    dsimp only
    rw [cutFirst_append hline, Option.bind_some]
    dsimp only
    rw [ih hlines, Option.map_some, String.ofList_toList]

/-- A note may have any text, with line ends, quotes and parentheses. -/
theorem readNote_attributes (h : w.Formed) {text : List Char}
    (htext : after? (indent ++ "#[deprecated(note = \"".toList) text = none) :
    readNote ((indented 1 w.attributes).toList ++ text) = some text := by
  rcases h.attributes with hnone | ⟨note, hnote⟩
  · have hempty : (indented 1 []).toList ++ text = text := rfl
    rw [hnone, hempty, readNote, htext]
  · have hline : (indented 1 ["#[deprecated(note = " ++ quoted note ++ ")]"]).toList ++ text =
        (indent ++ "#[deprecated(note = \"".toList) ++
          (note.toList.flatMap escapedChar ++ '"' :: (")]\n".toList ++ text)) := by
      rw [toList_indented_singleton]
      simp [quoted]
    rw [hnote, hline, readNote, after?_append]
    simp only [readLiteral_escaped, Option.bind_eq_bind, Option.bind_some, after?_append]

/-- What should be read of a method. -/
def Method.entry (w : Method) : MethodEntry := ⟨w.name, w.parameters, w.result, w.body⟩

/-- A method is read with everything behind its attribute. -/
theorem readMethod_text (h : w.Formed) (rest : List Char) :
    readMethod (w.text.toList ++ rest) = some (w.entry, rest) := by
  have htext : w.text.toList ++ rest = (indented 1 w.attributes).toList ++
      ((indent ++ "pub fn ".toList) ++ (w.name.toList ++ '(' :: (w.parameters.toList ++ ')' ::
        (" -> ".toList ++ ((w.result ++ " \x7b").toList ++ '\n' ::
          ((indented 2 w.body).toList ++ ((indented 1 ["\x7d"]).toList ++ rest))))))) := by
    rw [Method.text, String.toList_append, String.toList_append, String.toList_append,
      toList_indented_singleton]
    simp only [String.toList_append, List.append_assoc]
    rfl
  have hhead : OneLine (w.result ++ " \x7b") := h.result.append (by decide)
  have hresult : before? " \x7b".toList (w.result ++ " \x7b").toList = some w.result.toList := by
    rw [String.toList_append]
    exact before?_append _ _
  rw [htext, readMethod, readNote_attributes h rfl]
  simp only [Option.bind_eq_bind, Option.bind_some, after?_append, cutFirst_append h.name,
    cutFirst_append h.parameters, cutFirst_append hhead, hresult, readBody_lines h.body,
    String.ofList_toList]
  rfl

theorem readMethods_texts {ws : List Method} (hne : ws ≠ []) (h : ∀ w ∈ ws, w.Formed)
    (rest : List Char) :
    readMethods (("\n".intercalate (ws.map Method.text)).toList ++ ("\x7d\n".toList ++ rest)) =
      some (ws.map Method.entry, rest) := by
  induction ws with
  | nil => exact absurd rfl hne
  | cons w ws ih =>
    obtain ⟨hw, hws⟩ := List.forall_mem_cons.mp h
    cases ws with
    | nil =>
      have hlast : after? ['\n'] ("\x7d\n".toList ++ rest) = none := rfl
      rw [List.map_singleton, String.intercalate_singleton, readMethods_eq, readMethod_text hw,
        Option.bind_some]
      simp only [hlast, after?_append, Option.map_some]
      rfl
    | cons next ws =>
      have htext : ("\n".intercalate ((w :: next :: ws).map Method.text)).toList ++
            ("\x7d\n".toList ++ rest) = w.text.toList ++ '\n' ::
          (("\n".intercalate ((next :: ws).map Method.text)).toList ++ ("\x7d\n".toList ++ rest)) := by
        rw [List.map_cons, List.map_cons, String.intercalate_cons_cons, ← List.map_cons,
          String.toList_append, String.toList_append]
        simp only [List.append_assoc]
        rfl
      have hline (text : List Char) : after? ['\n'] ('\n' :: text) = some text := rfl
      rw [htext, readMethods_eq, readMethod_text hw, Option.bind_some]
      simp only [hline]
      rw [ih (List.cons_ne_nil next ws) hws, Option.map_some, ← List.map_cons]

/-! ## Methods of members -/

theorem mem_of_mem_withoutUnderscores {word : String} {c : Char}
    (h : c ∈ (withoutUnderscores word).toList) : c ∈ word.toList := by
  rw [withoutUnderscores, String.toList_ofList, List.mem_reverse] at h
  exact List.mem_reverse.mp ((List.dropWhile_sublist _).subset h)

theorem close_not_mem_append {s t : String} (hs : ')' ∉ s.toList) (ht : ')' ∉ t.toList) :
    ')' ∉ (s ++ t).toList := by
  rw [String.toList_append, List.mem_append, not_or]
  exact ⟨hs, ht⟩

/-- The name of a method has no mark in it. -/
theorem not_mem_append_withoutUnderscores {beginning word : String} (h : IsIdentifier word)
    {c : Char} (hc : Naming.isSnake c = false) (hbeginning : c ∉ beginning.toList) :
    c ∉ (beginning ++ withoutUnderscores word).toList := by
  rw [String.toList_append, List.mem_append, not_or]
  refine ⟨hbeginning, fun hmem => ?_⟩
  have hsnake := h.1.2 c (mem_of_mem_withoutUnderscores hmem)
  rw [hc] at hsnake
  cases hsnake

/-- The characters in the types of members. -/
def isTypeChar (c : Char) : Bool := c.isAlphanum || ['_', '<', '>', ',', ' '].contains c

theorem isTypeChar_append {s t : String} (hs : ∀ c ∈ s.toList, isTypeChar c)
    (ht : ∀ c ∈ t.toList, isTypeChar c) : ∀ c ∈ (s ++ t).toList, isTypeChar c := by
  rw [String.toList_append]
  exact List.forall_mem_append.mpr ⟨hs, ht⟩

theorem not_mem_of_isTypeChar {text : String} (h : ∀ c ∈ text.toList, isTypeChar c) {c : Char}
    (hc : isTypeChar c = false) : c ∉ text.toList := by
  intro hmem
  rw [h c hmem] at hc
  cases hc

theorem mem_text_of_mem_element {t : MemberType} {c : Char} (h : c ∈ t.element.text.toList) :
    c ∈ t.text.toList := by
  have hinside {element : MemberType} {beginning : String} (hc : c ∈ element.text.toList) :
      c ∈ (beginning ++ element.text ++ ">").toList := by
    rw [String.toList_append, String.toList_append]
    exact List.mem_append_left _ (List.mem_append_right _ hc)
  cases t with
  | list element => exact hinside h
  | map element => exact hinside h
  | _ => exact h

theorem mem_storedText_of_mem_text {m : Member} {c : Char} (h : c ∈ m.type.text.toList) :
    c ∈ m.storedText.toList := by
  rw [Member.storedText]
  split
  · rw [String.toList_append, String.toList_append]
    exact List.mem_append_left _ (List.mem_append_right _ h)
  · exact h

theorem isTypeChar_text {names : TypeNames}
    (hnames : ∀ word ∈ typeWords names, Naming.isTypeName word.toList) :
    (t : TypeExpr) → ∀ c ∈ (MemberType.ofType names t).text.toList, isTypeChar c
  | .scalar kind => by
    have hscalar : (MemberType.ofScalar kind).text.toList.all isTypeChar := by cases kind <;> decide
    exact List.all_eq_true.mp hscalar
  | .external _ | .union _ => List.all_eq_true.mp (by decide : "Value".toList.all isTypeChar)
  | .definition name => by
    intro c hc
    rw [text_definition, structName] at hc
    cases hlookup : names.lookup name with
    | none =>
      rw [hlookup] at hc
      exact List.all_eq_true.mp (by decide : "Value".toList.all isTypeChar) c hc
    | some word =>
      rw [hlookup] at hc
      have hword := hnames word (List.mem_map_of_mem (mem_of_lookup hlookup))
      rcases (Naming.isTypeName_iff.mp hword).2 c hc with rfl | hchar
      · rfl
      · rw [isTypeChar, hchar, Bool.true_or]
  | .list element =>
    isTypeChar_append (isTypeChar_append (List.all_eq_true.mp (by decide))
      (isTypeChar_text hnames element)) (List.all_eq_true.mp (by decide))
  | .map element =>
    isTypeChar_append (isTypeChar_append (List.all_eq_true.mp (by decide))
      (isTypeChar_text hnames element)) (List.all_eq_true.mp (by decide))

/-- The identifier is one, and the types have the characters of types. -/
structure Member.Formed (m : Member) : Prop where
  identifier : IsIdentifier m.identifier
  stored : ∀ c ∈ m.storedText.toList, isTypeChar c

namespace Member.Formed

variable {m : Member}

theorem oneLine_stored (h : m.Formed) : OneLine m.storedText :=
  not_mem_of_isTypeChar h.stored rfl

theorem close_not_mem_stored (h : m.Formed) : ')' ∉ m.storedText.toList :=
  not_mem_of_isTypeChar h.stored rfl

theorem close_not_mem_element (h : m.Formed) : ')' ∉ m.type.element.text.toList := fun hmem =>
  h.close_not_mem_stored (mem_storedText_of_mem_text (mem_text_of_mem_element hmem))

theorem place (h : m.Formed) : OneLine m.place := by
  refine OneLine.append (by decide) fun hmem => ?_
  cases h.identifier.1.2 _ hmem

theorem getter (h : m.Formed) : m.getter.Formed where
  attributes := by
    rw [Member.getter]
    cases m.view.deprecated with
    | none => exact Or.inl rfl
    | some note => exact Or.inr ⟨note, rfl⟩
  name hmem := by cases h.identifier.1.2 _ hmem
  parameters := (by decide : ')' ∉ "&self".toList)
  result := OneLine.append (by decide) h.oneLine_stored
  body := List.forall_mem_singleton.mpr (OneLine.append (by decide) h.place)

/-- The body of a method that puts a value in place. -/
theorem placing (h : m.Formed) : ∀ line ∈ [m.place ++ " = value;", "self"], OneLine line :=
  List.forall_mem_cons.mpr ⟨h.place.append (by decide), List.forall_mem_singleton.mpr (by decide)⟩

theorem setter (h : m.Formed) : m.setter.Formed where
  attributes := Or.inl rfl
  name := not_mem_append_withoutUnderscores h.identifier rfl (by decide)
  parameters := close_not_mem_append (by decide) h.close_not_mem_stored
  result := (by decide : OneLine "&mut Self")
  body := h.placing

theorem wither (h : m.Formed) : m.wither.Formed where
  attributes := Or.inl rfl
  name := not_mem_append_withoutUnderscores h.identifier rfl (by decide)
  parameters := close_not_mem_append (by decide) h.close_not_mem_stored
  result := (by decide : OneLine "Self")
  body := h.placing

theorem collectionPlace (h : m.Formed) {empty : String} (hempty : OneLine empty) :
    OneLine (m.collectionPlace empty) := by
  rw [Member.collectionPlace]
  split
  · exact ((h.place.append (by decide)).append hempty).append (by decide)
  · exact h.place

theorem adder (h : m.Formed) (isMap : Bool) : (m.adder isMap).Formed where
  attributes := Or.inl rfl
  name := not_mem_append_withoutUnderscores (isIdentifier_identifierFor _) rfl (by decide)
  parameters := by
    have hkey : ')' ∉ (if isMap then "key: impl Into<String>, " else "").toList := by
      cases isMap <;> decide
    exact close_not_mem_append (close_not_mem_append (close_not_mem_append (by decide) hkey)
      (by decide)) h.close_not_mem_element
  result := (by decide : OneLine "&mut Self")
  body := by
    refine List.forall_mem_cons.mpr ⟨?_, List.forall_mem_singleton.mpr (by decide)⟩
    split
    · exact (h.collectionPlace (by decide)).append (by decide)
    · exact (h.collectionPlace (by decide)).append (by decide)

theorem whenPresent (h : m.Formed) {name action : String} (hname : OneLine name)
    (haction : OneLine action) : ∀ line ∈ m.whenPresent name action, OneLine line := by
  rw [Member.whenPresent]
  split
  · simp only [List.forall_mem_cons]
    refine ⟨?_, (OneLine.append (by decide) hname).append haction, by decide, nofun⟩
    exact (((OneLine.append (by decide) hname).append (by decide)).append h.place).append (by decide)
  · exact List.forall_mem_singleton.mpr (h.place.append haction)

theorem remover (h : m.Formed) (isMap : Bool) : (m.remover isMap).Formed where
  attributes := Or.inl rfl
  name := not_mem_append_withoutUnderscores (isIdentifier_identifierFor _) rfl (by decide)
  parameters := by
    refine close_not_mem_append (by decide) ?_
    split
    · decide
    · exact close_not_mem_append (by decide) h.close_not_mem_element
  result := (by decide : OneLine "&mut Self")
  body := by
    refine List.forall_mem_append.mpr ⟨?_, List.forall_mem_singleton.mpr (by decide)⟩
    split
    · exact h.whenPresent (by decide) (by decide)
    · exact h.whenPresent (by decide) (by decide)

theorem methods (h : m.Formed) (immutable : Bool) : ∀ w ∈ m.methods immutable, w.Formed := by
  rw [Member.methods]
  cases immutable with
  | true => simp [h.getter, h.wither]
  | false => cases m.view.holding <;> simp [h.getter, h.setter, h.wither, h.adder, h.remover]

end Member.Formed

theorem Member.formed_of_mem_ofFields {names : TypeNames}
    (hnames : ∀ word ∈ typeWords names, Naming.isTypeName word.toList) {used : List String}
    {fs : List FieldView} {m : Member} (h : m ∈ ofFields names used fs) : m.Formed where
  identifier := isIdentifier_of_mem_ofFields h
  stored := by
    obtain ⟨f, -, identifier, rfl⟩ := exists_of_mem_ofFields h
    rw [storedText]
    split
    · exact isTypeChar_append (isTypeChar_append (List.all_eq_true.mp (by decide))
        (isTypeChar_text hnames f.type)) (List.all_eq_true.mp (by decide))
    · exact isTypeChar_text hnames f.type

/-! ## Structs -/

/-- A struct whose members are formed, with the methods for them, and whose name and parent are on
one line. -/
structure Struct.Formed (s : Struct) : Prop where
  name : OneLine s.name
  parent : ∀ p ∈ s.parent, OneLine p
  members : ∀ m ∈ s.members, m.Formed
  methods : ∀ w ∈ s.methods, w.Formed

theorem Struct.formed_ofDefinition {names : TypeNames}
    (hnames : ∀ word ∈ typeWords names, Naming.isTypeName word.toList) (d : DefinitionView) :
    (Struct.ofDefinition names d).Formed := by
  have hlines : ∀ word ∈ typeWords names, OneLine word :=
    fun word hword => oneLine_of_isTypeName (hnames word hword)
  have hmembers : ∀ m ∈ (Struct.ofDefinition names d).members, m.Formed :=
    fun m hm => Member.formed_of_mem_ofFields hnames hm
  refine ⟨oneLine_structName hlines d.name, fun p hp => ?_, hmembers, fun w hw => ?_⟩
  · obtain ⟨name, -, rfl⟩ := Option.map_eq_some_iff.mp hp
    exact oneLine_structName hlines name
  · obtain ⟨m, hm, hw⟩ := List.mem_flatMap.mp hw
    exact (hmembers m hm).methods d.immutable w hw

/-- The block of a struct is read, whatever follows it that is no such block. -/
theorem readBlock_block {s : Struct} (hs : s.Formed) {rest : List Char}
    (hrest : after? "\nimpl ".toList rest = none) :
    readBlock (s.block.toList ++ rest) = some (s.methods.map Method.entry, rest) := by
  rw [Struct.block]
  cases hmethods : s.methods with
  | nil =>
    have hempty : "".toList ++ rest = rest := rfl
    rw [List.isEmpty_nil, if_pos rfl, hempty, readBlock, hrest]
    rfl
  | cons w ws =>
    have hne : s.methods ≠ [] := by simp [hmethods]
    have htext : ("\nimpl " ++ s.name ++ " \x7b\n" ++ "\n".intercalate (s.methods.map Method.text) ++
        "\x7d\n").toList ++ rest = "\nimpl ".toList ++ ((s.name ++ " \x7b").toList ++ '\n' ::
          (("\n".intercalate (s.methods.map Method.text)).toList ++ ("\x7d\n".toList ++ rest))) := by
      simp
    have hhead : OneLine (s.name ++ " \x7b") := hs.name.append (by decide)
    rw [← hmethods, if_neg (by simpa using hne), htext, readBlock, after?_append]
    simp only [cutFirst_append hhead, Option.bind_some]
    exact readMethods_texts hne hs.methods rest

theorem formed_of_mem_structs {v : ViewModel} (hv : v.Closed) {s : Struct} (hs : s ∈ structs v) :
    s.Formed := by
  obtain ⟨d, -, rfl⟩ := List.mem_map.mp hs
  exact Struct.formed_ofDefinition (Target.isTypeName_typeNames hv .rust) d

theorem readBlock_of_mem_structs {v : ViewModel} (hv : v.Closed) {s : Struct} (hs : s ∈ structs v) :
    readBlock s.block.toList = some (s.methods.map Method.entry, []) := by
  have hnone : after? "\nimpl ".toList [] = none := rfl
  have hread := readBlock_block (formed_of_mem_structs hv hs) hnone
  rwa [List.append_nil] at hread

/-- In the printed file, the block of its methods stands behind the declaration of a struct, and it is
read as the list of them. Their names are different if and only if no identifier is the name of a method that is no
getter, and no two collections of a mutable definition have the same name for an element. -/
theorem nodup_methodNames_iff {decls : Declarations} {v : ViewModel}
    (h : ViewModel.ofDeclarations decls = .ok v) :
    List.Forall₂ (fun d s =>
        Within s.text (write v) ∧ s.text = s.declaration ++ s.block ∧
        ∃ methods, readBlock s.block.toList = some (methods, []) ∧
          methods = s.methods.map Method.entry ∧
          methods.map (·.name) = s.methods.map (·.name) ∧
          ((methods.map (·.name)).Nodup ↔
            (∀ m ∈ s.members, m.identifier ∉ derivedNames d.immutable s.members) ∧
              (elementStems d.immutable s.members).Nodup))
      v.definitions (structs v) := by
  have hread := fun s => readBlock_of_mem_structs (s := s) (ViewModel.closed_of_ofDeclarations h)
  rw [structs, List.forall₂_map_right_iff, List.forall₂_same]
  intro d hd
  have hnames (s : Struct) : (s.methods.map Method.entry).map (·.name) = s.methods.map (·.name) :=
    List.map_map
  refine ⟨within_write (List.mem_map_of_mem hd), Struct.text_eq _, _,
    hread _ (List.mem_map_of_mem hd), rfl, hnames _, ?_⟩
  rw [hnames]
  exact nodup_names_iff _ d.immutable d.fields

/-- A note that looks like a method, and names that are beginnings of other names. -/
def taggedPage : Declarations := Catalogue.ofList
  [("Page", ⟨none, false, Catalogue.ofList
    [("tags", { FieldDeclaration.ofType "string[]" with
        deprecated := some "gone\")]\n    pub fn set(" }),
      ("set", .ofType "int"), ("type", .ofType "string")]⟩)]

theorem nodup_methodNames_iff_taggedPage : ∃ v, ViewModel.ofDeclarations taggedPage = .ok v ∧
    ∃ s ∈ structs v, ∃ methods, readBlock s.block.toList = some (methods, []) ∧
      methods.map (·.name) =
        ["tags", "set_tags", "with_tags", "add_tag", "remove_tag", "set", "set_set", "with_set",
          "type_", "set_type", "with_type"] ∧
      (∀ m ∈ s.members, m.identifier ∉ derivedNames false s.members) ∧
        (elementStems false s.members).Nodup := by
  obtain ⟨v, hv, hmutable, s, hs, hnames⟩ : ∃ v, ViewModel.ofDeclarations taggedPage = .ok v ∧
      (∀ d ∈ v.definitions, d.immutable = false) ∧ ∃ s ∈ structs v, s.methods.map (·.name) =
        ["tags", "set_tags", "with_tags", "add_tag", "remove_tag", "set", "set_set", "with_set",
          "type_", "set_type", "with_type"] :=
    exists_ok_of_decide (by decide +kernel)
  obtain ⟨d, hd, -, -, methods, hread, -, hsame, hiff⟩ :=
    exists_of_forall₂_left (nodup_methodNames_iff hv).flip s hs
  rw [hnames] at hsame
  rw [hsame, hmutable d hd] at hiff
  exact ⟨v, hv, s, hs, methods, hread, hsame, hiff.mp (by decide)⟩

/-- A field that is named like the setter of another one. -/
def setLevel : Declarations := Catalogue.ofList
  [("Gauge", ⟨none, false, Catalogue.ofList [("level", .ofType "int"), ("set_level", .ofType "int")]⟩)]

/-- The block has two methods that are called `set_level`. -/
theorem not_nodup_methodNames_setLevel : ∃ v, ViewModel.ofDeclarations setLevel = .ok v ∧
    ∃ s ∈ structs v, ∃ methods, readBlock s.block.toList = some (methods, []) ∧
      methods.map (·.name) =
        ["level", "set_level", "with_level", "set_level", "set_set_level", "with_set_level"] ∧
      ¬ (methods.map (·.name)).Nodup := by
  obtain ⟨v, hv, s, hs, hnames⟩ : ∃ v, ViewModel.ofDeclarations setLevel = .ok v ∧
      ∃ s ∈ structs v, s.methods.map (·.name) =
        ["level", "set_level", "with_level", "set_level", "set_set_level", "with_set_level"] :=
    exists_ok_of_decide (by decide +kernel)
  have hread := readBlock_of_mem_structs (ViewModel.closed_of_ofDeclarations hv) hs
  have hsame : (s.methods.map Method.entry).map (·.name) = s.methods.map (·.name) := List.map_map
  refine ⟨v, hv, s, hs, _, hread, hsame.trans hnames, ?_⟩
  rw [hsame, hnames]
  decide

end RecordDefinitions.Structs
