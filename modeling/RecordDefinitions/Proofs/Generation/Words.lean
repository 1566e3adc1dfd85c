import RecordDefinitions.Proofs.Generation.Names

/-!
# What the words of a file stand for

A file declares its types and uses words for types that come from elsewhere. A word stands for
the definition whose type has it as its name, wherever there is one: then a word that is there
for something else is captured.
-/

namespace RecordDefinitions.Generation

/-! ## The words of a text -/

/-- Whether a character stands between words. -/
def isGap (c : Char) : Bool := !(c == '_' || c.isAlphanum)

/-- The runs of letters, digits and underscores. -/
def wordsIn (text : List Char) : List (List Char) :=
  (Text.pieces isGap text).filter fun piece => !piece.isEmpty

/-- The words of a text. -/
def printedWords (text : String) : List String := (wordsIn text.toList).map String.ofList

/-- A text of one word. -/
def isPlain (word : String) : Bool := !word.toList.isEmpty && word.toList.all fun c => !isGap c

/-- A text that stands between words. -/
def separates (glue : String) : Bool := !glue.toList.isEmpty && glue.toList.all isGap

theorem wordsIn_append {gaps : List Char} (hne : gaps ≠ []) (h : gaps.all isGap)
    (text rest : List Char) : wordsIn (text ++ gaps ++ rest) = wordsIn text ++ wordsIn rest := by
  induction gaps generalizing text with
  | nil => exact absurd rfl hne
  | cons c gaps ih =>
    obtain ⟨hc, hgaps⟩ := Bool.and_eq_true_iff.mp h
    have hfirst (rest : List Char) :
        wordsIn (text ++ c :: rest) = wordsIn text ++ wordsIn rest := by
      rw [wordsIn, Text.pieces_separator_append hc, List.filter_append]
      rfl
    rw [List.append_assoc, List.cons_append, hfirst]
    cases gaps with
    | nil => rfl
    | cons d gaps => exact congrArg _ (ih (List.cons_ne_nil d gaps) hgaps [])

theorem printedWords_empty : printedWords "" = [] := by decide

theorem printedWords_append {glue : String} (h : separates glue) (text rest : String) :
    printedWords (text ++ glue ++ rest) = printedWords text ++ printedWords rest := by
  obtain ⟨hne, hgaps⟩ := Bool.and_eq_true_iff.mp h
  have hne : glue.toList ≠ [] := by simpa using hne
  rw [printedWords, String.toList_append, String.toList_append, wordsIn_append hne hgaps,
    List.map_append]
  rfl

/-- A text that ends between words has its words in front of those that follow. -/
theorem printedWords_append_left {head : String} (h : head.toList.getLast?.any isGap)
    (rest : String) : printedWords (head ++ rest) = printedWords head ++ printedWords rest := by
  obtain ⟨c, hlast, hc⟩ := (Option.any_eq_true _ _).mp h
  obtain ⟨start, hhead⟩ := List.getLast?_eq_some_iff.mp hlast
  have hcut (rest : List Char) : wordsIn (start ++ [c] ++ rest) = wordsIn start ++ wordsIn rest :=
    wordsIn_append (List.cons_ne_nil c []) (by simpa using hc) start rest
  have hwhole : wordsIn (start ++ [c]) = wordsIn start := by
    have hnil := hcut []
    rwa [List.append_nil, show wordsIn [] = [] from rfl, List.append_nil] at hnil
  simp only [printedWords, String.toList_append, hhead, hcut, hwhole, List.map_append]

/-- A text that starts between words has its words behind those in front of it. -/
theorem printedWords_append_right {tail : String} (h : tail.toList.head?.any isGap)
    (text : String) : printedWords (text ++ tail) = printedWords text ++ printedWords tail := by
  obtain ⟨c, hfirst, hc⟩ := (Option.any_eq_true _ _).mp h
  obtain ⟨rest, htail⟩ := List.head?_eq_some_iff.mp hfirst
  have hcut (text : List Char) : wordsIn (text ++ [c] ++ rest) = wordsIn text ++ wordsIn rest :=
    wordsIn_append (List.cons_ne_nil c []) (by simpa using hc) text rest
  have hwhole : wordsIn (c :: rest) = wordsIn rest := hcut []
  have hsplit : text.toList ++ c :: rest = text.toList ++ [c] ++ rest := by simp
  simp only [printedWords, String.toList_append, htail, hsplit, hcut, hwhole, List.map_append]

theorem printedWords_of_isPlain {word : String} (h : isPlain word) : printedWords word = [word] := by
  obtain ⟨hne, hall⟩ := Bool.and_eq_true_iff.mp h
  have hpieces : Text.pieces isGap word.toList = [word.toList] :=
    Text.pieces_of_forall fun c hc => by simpa using List.all_eq_true.mp hall c hc
  rw [printedWords, wordsIn, hpieces, List.filter_cons, if_pos hne, List.filter_nil,
    List.map_singleton, String.ofList_toList]

theorem isPlain_of_isTypeName {word : String} (h : Naming.isTypeName word.toList) :
    isPlain word := by
  obtain ⟨⟨c, rest, hname, -⟩, hall⟩ := Naming.isTypeName_iff.mp h
  rw [isPlain, hname, List.isEmpty_cons, Bool.not_false, Bool.true_and, ← hname, List.all_eq_true]
  intro d hd
  rcases hall d hd with rfl | hd
  · rfl
  · rw [isGap, hd, Bool.or_true, Bool.not_true, Bool.not_false]

/-- The words of a type that is applied to an argument. -/
theorem printedWords_applied {head : String} (h : isPlain head) (argument : String) :
    printedWords (head ++ "<" ++ (argument ++ ">")) = head :: printedWords argument := by
  have hargument : argument ++ ">" = argument ++ ">" ++ "" := String.append_empty.symm
  rw [printedWords_append (by decide), printedWords_of_isPlain h, hargument,
    printedWords_append (by decide), printedWords_empty, List.append_nil]
  rfl

theorem printedWords_intercalate {glue : String} (h : separates glue) (texts : List String) :
    printedWords (glue.intercalate texts) = texts.flatMap printedWords := by
  induction texts with
  | nil => rfl
  | cons text texts ih =>
    cases texts with
    | nil => simp
    | cons next texts =>
      rw [String.intercalate_cons_cons, printedWords_append h, ih, ← List.flatMap_cons]

/-! ## Texts inside other texts -/

/-- A text has a part. -/
def Within (part text : String) : Prop :=
  ∃ before after : String, text = before ++ part ++ after

/-- A text has a part between words. -/
def Stands (part text : String) : Prop :=
  ∃ before after : String, text = before ++ part ++ after ∧
    before.toList.getLast?.any isGap ∧ after.toList.head?.any isGap

section Inside

variable {part inner text glue : String} {texts : List String}

theorem any_getLast?_append {head : String} (h : head.toList.getLast?.any isGap) (start : String) :
    (start ++ head).toList.getLast?.any isGap := by
  obtain ⟨c, hlast, hc⟩ := (Option.any_eq_true _ _).mp h
  rw [String.toList_append, List.getLast?_append, hlast, Option.some_or, Option.any_some, hc]

theorem any_head?_append {tail : String} (h : tail.toList.head?.any isGap) (rest : String) :
    (tail ++ rest).toList.head?.any isGap := by
  obtain ⟨c, hfirst, hc⟩ := (Option.any_eq_true _ _).mp h
  rw [String.toList_append, List.head?_append, hfirst, Option.some_or, Option.any_some, hc]

namespace Within

theorem refl (text : String) : Within text text :=
  ⟨"", "", by rw [String.empty_append, String.append_empty]⟩

theorem trans (h : Within part inner) (h' : Within inner text) : Within part text := by
  obtain ⟨before, after, rfl⟩ := h
  obtain ⟨start, rest, rfl⟩ := h'
  exact ⟨start ++ before, after ++ rest, by simp only [String.append_assoc]⟩

theorem append_left (h : Within part text) (head : String) : Within part (head ++ text) := by
  obtain ⟨before, after, rfl⟩ := h
  exact ⟨head ++ before, after, by simp only [String.append_assoc]⟩

theorem append_right (h : Within part text) (tail : String) : Within part (text ++ tail) := by
  obtain ⟨before, after, rfl⟩ := h
  exact ⟨before, after ++ tail, by simp only [String.append_assoc]⟩

theorem join (h : part ∈ texts) : Within part (String.join texts) := by
  induction texts with
  | nil => cases h
  | cons text texts ih =>
    rw [String.join_cons]
    rcases List.mem_cons.mp h with rfl | h
    · exact (refl part).append_right _
    · exact (ih h).append_left text

theorem intercalate (h : part ∈ texts) (glue : String) : Within part (glue.intercalate texts) := by
  induction texts with
  | nil => cases h
  | cons text texts ih =>
    cases texts with
    | nil =>
      obtain rfl := List.mem_singleton.mp h
      rw [String.intercalate_singleton]
      exact refl part
    | cons next texts =>
      rw [String.intercalate_cons_cons]
      rcases List.mem_cons.mp h with rfl | h
      · exact ((refl part).append_right glue).append_right _
      · exact (ih h).append_left _

end Within

namespace Stands

/-- A part with marks around it. -/
theorem between {head tail : String} (hhead : head.toList.getLast?.any isGap)
    (htail : tail.toList.head?.any isGap) (part : String) : Stands part (head ++ part ++ tail) :=
  ⟨head, tail, rfl, hhead, htail⟩

theorem within (h : Stands part inner) (hinner : Within inner text) : Stands part text := by
  obtain ⟨before, after, rfl, hbefore, hafter⟩ := h
  obtain ⟨start, rest, rfl⟩ := hinner
  refine ⟨start ++ before, after ++ rest, by simp only [String.append_assoc], ?_, ?_⟩
  · exact any_getLast?_append hbefore start
  · exact any_head?_append hafter rest

theorem append_left (h : Stands part text) (head : String) : Stands part (head ++ text) :=
  h.within ((Within.refl text).append_left head)

theorem append_right (h : Stands part text) (tail : String) : Stands part (text ++ tail) :=
  h.within ((Within.refl text).append_right tail)

/-- The words of a part between words are words of the text. -/
theorem printedWords_subset (h : Stands part text) : printedWords part ⊆ printedWords text := by
  obtain ⟨before, after, rfl, hbefore, hafter⟩ := h
  rw [String.append_assoc, printedWords_append_left hbefore, printedWords_append_right hafter]
  exact List.subset_append_of_subset_right _ (List.subset_append_left _ _)

theorem mem_printedWords (h : Stands part text) (hpart : isPlain part) :
    part ∈ printedWords text := by
  apply h.printedWords_subset
  rw [printedWords_of_isPlain hpart]
  exact List.mem_singleton_self part

end Stands

end Inside

/-! ## What a word stands for -/

/-- A word in a file, and the definition that it is there for. Words for what comes from
elsewhere are there for none. -/
structure Use where
  word : String
  definition : Option String

/-- The definition whose type has a word as its name. -/
def denotes (names : TypeNames) (word : String) : Option String :=
  (names.find? fun entry => entry.2 == word).map Prod.fst

/-- A word that becomes the name of a type only as the name of a class, if at all. -/
def isHelper (isReserved : String → Bool) (word : String) : Bool :=
  (!isReserved word && !isCoined word) || word.toList.head?.any Char.isLower

/-- A use of a word from elsewhere, or of the name of a type that is referred to. -/
inductive Use.Fits (isReserved : String → Bool) (names : TypeNames) (fallback : String)
    (Refers : String → Prop) : Use → Prop
  | helper {word : String} : isHelper isReserved word →
      Fits isReserved names fallback Refers ⟨word, none⟩
  | type {name : String} : Refers name →
      Fits isReserved names fallback Refers ⟨(names.lookup name).getD fallback, some name⟩

theorem Use.Fits.imp {isReserved : String → Bool} {names : TypeNames} {fallback : String}
    {Refers Refers' : String → Prop} {use : Use}
    (h : use.Fits isReserved names fallback Refers) (himp : ∀ name, Refers name → Refers' name) :
    use.Fits isReserved names fallback Refers' := by
  cases h with
  | helper hword => exact .helper hword
  | type hname => exact .type (himp _ hname)

theorem denotes_eq_none_iff {names : TypeNames} {word : String} :
    denotes names word = none ↔ word ∉ typeWords names := by
  rw [denotes, Option.map_eq_none_iff, List.find?_eq_none, typeWords, List.mem_map]
  simp only [beq_iff_eq, not_exists, not_and]

theorem denotes_of_lookup {names : TypeNames} (hnodup : (typeWords names).Nodup)
    {name word : String} (h : names.lookup name = some word) : denotes names word = some name := by
  have hmem := mem_of_lookup h
  cases hfind : names.find? fun entry => entry.2 == word with
  | none =>
    have hnone := List.find?_eq_none.mp hfind _ hmem
    simp at hnone
  | some entry =>
    have hword : entry.2 = word := by simpa using List.find?_some hfind
    have hsame := List.inj_on_of_nodup_map hnodup (List.mem_of_find?_eq_some hfind) hmem hword
    rw [denotes, hfind, Option.map_some, hsame]

/-- The name of a type is one word. -/
theorem isPlain_typeName {names : TypeNames} {fallback : String}
    (hnames : ∀ word ∈ typeWords names, Naming.isTypeName word.toList)
    (hfallback : isPlain fallback) (name : String) :
    isPlain ((names.lookup name).getD fallback) := by
  cases h : names.lookup name with
  | none => exact hfallback
  | some word =>
    apply isPlain_of_isTypeName
    exact hnames word (List.mem_map_of_mem (mem_of_lookup h))

variable {isReserved : String → Bool} {ds : List DefinitionView}

/-- A name is given to a definition that is there, and stands for it. -/
theorem denotes_typeName {d : DefinitionView} (hd : d ∈ ds) (isReserved : String → Bool)
    (fallback : String) :
    denotes (nameTypes isReserved [] ds)
      (((nameTypes isReserved [] ds).lookup d.name).getD fallback) = some d.name := by
  obtain ⟨word, hword⟩ := exists_lookup_of_mem hd isReserved []
  rw [hword, Option.getD_some]
  exact denotes_of_lookup (typeWords_fresh isReserved [] ds).1 hword

/-- A word from elsewhere stands for a definition if and only if it is the name of its class. -/
theorem denotes_eq_none_iff_of_isHelper
    (hclass : ∀ d ∈ ds, Naming.isTypeName d.className.toList) {word : String}
    (h : isHelper isReserved word) :
    denotes (nameTypes isReserved [] ds) word = none ↔ ∀ d ∈ ds, d.className ≠ word := by
  rw [denotes_eq_none_iff]
  rcases Bool.or_eq_true_iff.mp h with hbare | hlower
  · simp only [Bool.and_eq_true, Bool.not_eq_true'] at hbare
    rw [mem_typeWords_iff hbare.1 hbare.2]
    simp only [not_exists, not_and, ne_eq]
  · have hsmall : ¬ Naming.isTypeName word.toList := by
      intro hname
      obtain ⟨⟨c, rest, hword, hupper⟩, -⟩ := Naming.isTypeName_iff.mp hname
      rw [hword, List.head?_cons, Option.any_some] at hlower
      exact Char.not_isUpper_of_isLower hlower hupper
    constructor
    · rintro - d hd rfl
      exact hsmall (hclass d hd)
    · exact fun _ hword => hsmall (isTypeName_of_mem_typeWords hclass hword)

/-- A reserved word that is not coined stands for no definition. -/
theorem denotes_reserved {word : String} (hreserved : isReserved word)
    (hcoined : isCoined word = false) : denotes (nameTypes isReserved [] ds) word = none := by
  rw [denotes_eq_none_iff]
  intro hword
  rcases isCoined_or_exists_class hword with h | ⟨h, -⟩
  · rw [hcoined] at h
    cases h
  · rw [hreserved] at h
    cases h

/-- Every word that is there for a definition stands for it, and every other one stands for none
unless it is the name of a class. -/
theorem Use.Fits.denotes
    (hclass : ∀ d ∈ ds, Naming.isTypeName d.className.toList) {fallback : String} {use : Use}
    (h : use.Fits isReserved (nameTypes isReserved [] ds) fallback
      fun name => ∃ d ∈ ds, d.name = name) :
    (∀ name, use.definition = some name →
        denotes (nameTypes isReserved [] ds) use.word = some name) ∧
      (use.definition = none →
        (denotes (nameTypes isReserved [] ds) use.word = none ↔
          ∀ d ∈ ds, d.className ≠ use.word)) := by
  cases h with
  | helper hword =>
    refine ⟨fun name hname => ?_, fun _ => denotes_eq_none_iff_of_isHelper hclass hword⟩
    cases hname
  | type hname =>
    obtain ⟨d, hd, rfl⟩ := hname
    refine ⟨fun name hname => ?_, fun hnone => ?_⟩
    · obtain rfl := Option.some.inj hname
      exact denotes_typeName hd isReserved fallback
    · cases hnone

end RecordDefinitions.Generation
