import RecordDefinitions.Generation.Target
import RecordDefinitions.Proofs.Generation.Identifiers
import RecordDefinitions.Proofs.Generation.Words

/-!
# Where words stand in a file

The names of generated types, the types of their members, and the words that the declarations need
for themselves stand between words in the printed file.
-/

namespace RecordDefinitions

open Generation

/-! ## Structs -/

namespace Structs

/-- The words that a struct needs for what is derived for it and for its methods. -/
def helperWords (d : DefinitionView) : List String :=
  ["Debug", "Clone", "Default", "PartialEq", "Serialize", "Deserialize"]
    ++ if !d.immutable && d.fields.any (·.holding = .map) then ["Into"] else []

/-- The text of the methods behind a struct. -/
def Struct.block (s : Struct) : String :=
  if s.methods.isEmpty then ""
  else "\nimpl " ++ s.name ++ " \x7b\n" ++ "\n".intercalate (s.methods.map Method.text) ++ "\x7d\n"

/-- The text of a struct without its methods. -/
def Struct.declaration (s : Struct) : String :=
  ((s.parent.map fun p => "/// Extends [`" ++ p ++ "`]; inherited fields are inlined.\n").getD "")
    ++ "#[derive(Debug, Clone, Default, PartialEq, Serialize, Deserialize)]\n"
    ++ "pub struct " ++ s.name ++ " \x7b\n"
    ++ String.join (s.members.map fun m => indented 1 m.lines)
    ++ "\x7d\n"

variable {s : Struct} {m : Member} {v : ViewModel}

theorem Struct.text_eq (s : Struct) : s.text = s.declaration ++ s.block := rfl

theorem within_write (hs : s ∈ structs v) : Within s.text (write v) := by
  have hne : v.definitions.isEmpty = false := by
    obtain ⟨d, hd, -⟩ := List.mem_map.mp hs
    exact List.isEmpty_eq_false_iff.mpr (List.ne_nil_of_mem hd)
  rw [write, hne, if_neg Bool.false_ne_true]
  exact ((Within.intercalate (List.mem_map_of_mem hs) "\n").append_left _).append_left _

theorem within_indented {line : String} {lines : List String} (h : line ∈ lines) (steps : Nat) :
    Within line (indented steps lines) :=
  (((Within.refl line).append_left _).append_right _).trans
    (Within.join (List.mem_map_of_mem h))

theorem Struct.stands_name (s : Struct) : Stands s.name s.text := by
  have hhead : "pub struct ".toList.getLast?.any isGap := by decide
  rw [s.text_eq, Struct.declaration]
  exact (((Stands.between (any_getLast?_append hhead _) (by decide) s.name).append_right
    _).append_right _).append_right _

theorem Struct.stands_derived (s : Struct) :
    Stands "derive(Debug, Clone, Default, PartialEq, Serialize, Deserialize)" s.text := by
  have hline : "#[" ++ "derive(Debug, Clone, Default, PartialEq, Serialize, Deserialize)" ++ "]\n" =
      "#[derive(Debug, Clone, Default, PartialEq, Serialize, Deserialize)]\n" := by decide
  rw [s.text_eq, Struct.declaration, ← hline]
  have hderived : Stands "derive(Debug, Clone, Default, PartialEq, Serialize, Deserialize)"
      ("#[" ++ "derive(Debug, Clone, Default, PartialEq, Serialize, Deserialize)" ++ "]\n") :=
    .between (by decide) (by decide) _
  exact ((((((hderived.append_left _).append_right _).append_right _).append_right _).append_right
    _).append_right _).append_right _

theorem Struct.stands_parent {p : String} (hp : s.parent = some p) : Stands p s.text := by
  have hline : Stands p ("/// Extends [`" ++ p ++ "`]; inherited fields are inlined.\n") :=
    .between (by decide) (by decide) p
  rw [s.text_eq, Struct.declaration, hp, Option.map_some, Option.getD_some]
  exact (((((((hline.append_right _).append_right _).append_right _).append_right _).append_right
    _).append_right _).append_right _)

theorem Struct.stands_storedText (hm : m ∈ s.members) : Stands m.storedText s.text := by
  have hline : Stands m.storedText (m.identifier ++ ": " ++ m.storedText ++ ",") :=
    .between (any_getLast?_append (by decide) _) (by decide) _
  have hmem : m.identifier ++ ": " ++ m.storedText ++ "," ∈ m.lines :=
    List.mem_append_right _ (List.mem_singleton_self _)
  have hmember : Stands m.storedText (String.join (s.members.map fun m => indented 1 m.lines)) :=
    hline.within ((within_indented hmem 1).trans (Within.join (List.mem_map_of_mem hm)))
  rw [s.text_eq, Struct.declaration]
  exact ((hmember.append_left _).append_right _).append_right _

theorem Struct.within_block {w : Method} (hw : w ∈ s.methods) : Within w.text s.block := by
  rw [Struct.block, List.isEmpty_eq_false_iff.mpr (List.ne_nil_of_mem hw), if_neg Bool.false_ne_true]
  exact ((Within.intercalate (List.mem_map_of_mem hw) "\n").append_left _).append_right _

/-- What is added to a map comes with a key. -/
theorem Struct.stands_into (hm : m.adder true ∈ s.methods) : Stands "Into" s.text := by
  have hkey : Stands "Into" ("key: impl " ++ "Into" ++ "<String>, ") :=
    .between (by decide) (by decide) _
  have hparameters : Stands "Into" (m.adder true).parameters :=
    ((hkey.append_left "&mut self, ").append_right "value: ").append_right _
  have hline : Stands "Into" ("pub fn " ++ (m.adder true).name ++ "(" ++ (m.adder true).parameters ++
      ") -> " ++ (m.adder true).result ++ " \x7b") :=
    (((hparameters.append_left _).append_right _).append_right _).append_right _
  have hmethod : Stands "Into" (m.adder true).text :=
    (((hline.within (within_indented (List.mem_singleton_self _) 1)).append_left _).append_right
      _).append_right _
  rw [s.text_eq]
  exact (hmethod.within (within_block hm)).append_left _

theorem adder_mem_methods (names : TypeNames) {d : DefinitionView} {f : FieldView}
    (himmutable : d.immutable = false) (hf : f ∈ d.fields) (hholding : f.holding = .map) :
    ∃ m : Member, m.adder true ∈ (Struct.ofDefinition names d).methods := by
  rw [← Member.map_view_ofFields names [] d.fields] at hf
  obtain ⟨m, hm, rfl⟩ := List.mem_map.mp hf
  refine ⟨m, List.mem_flatMap.mpr ⟨m, hm, ?_⟩⟩
  rw [Member.methods, himmutable, hholding]
  exact List.mem_append_right _ List.mem_cons_self

/-- The words of the declarations are printed. -/
theorem helperWords_subset {names : TypeNames} {d : DefinitionView} {file : String}
    (h : Within (Struct.ofDefinition names d).text file) : helperWords d ⊆ printedWords file := by
  refine List.append_subset.mpr ⟨?_, ?_⟩
  · refine List.Subset.trans ?_ ((Struct.stands_derived _).within h).printedWords_subset
    decide
  · split
    next hmap =>
      obtain ⟨himmutable, hany⟩ := Bool.and_eq_true_iff.mp hmap
      obtain ⟨f, hf, hholding⟩ := List.any_eq_true.mp hany
      obtain ⟨m, hm⟩ := adder_mem_methods names (by simpa using himmutable) hf
        (by simpa using hholding)
      exact List.cons_subset.mpr
        ⟨((Struct.stands_into hm).within h).mem_printedWords (by decide), List.nil_subset _⟩
    · exact List.nil_subset _

end Structs

/-! ## Interfaces -/

namespace Interfaces

/-- The words that an interface needs for leaving members out of its parent. -/
def helperWords (d : DefinitionView) : List String :=
  if d.parent.isSome && d.ownFields.any (·.overrides.isSome) then ["Omit"] else []

/-- The text of the type of a member. -/
def Property.typeText (p : Property) : String :=
  p.type.text ++ if p.nullable then " | null" else ""

/-- The beginning of a member, up to its type. -/
def Property.beginning (p : Property) : String :=
  comment p.notes ++ "  " ++ (if p.readonly then "readonly " else "") ++ propertyName p.name
    ++ (if p.optional then "?" else "")

theorem Property.text_eq (p : Property) : p.text = p.beginning ++ ": " ++ p.typeText ++ ";\n" := by
  simp only [Property.text, Property.beginning, Property.typeText, String.append_assoc]

variable {i : Interface} {p : Property} {v : ViewModel}

theorem within_write (hi : i ∈ interfaces v) : Within i.text (write v) := by
  have hne : v.definitions.isEmpty = false := by
    obtain ⟨d, hd, -⟩ := List.mem_map.mp hi
    exact List.isEmpty_eq_false_iff.mpr (List.ne_nil_of_mem hd)
  rw [write, hne, if_neg Bool.false_ne_true]
  exact (((Within.intercalate (List.mem_map_of_mem hi) "\n\n").append_left _).append_right
    _).append_left _

/-- What follows the name of an interface starts with a blank. -/
theorem starts_heritage (parent : Option String) (omitted : List String) (rest : List Char) :
    Text.Starts (fun c => isGap c) ((heritage parent omitted).toList ++ ' ' :: rest) := by
  unfold heritage
  split
  · exact ⟨' ', _, rfl, rfl⟩
  · split
    · simp only [String.toList_append, List.append_assoc]
      exact ⟨' ', _, rfl, rfl⟩
    · simp only [String.toList_append, List.append_assoc]
      exact ⟨' ', _, rfl, rfl⟩

theorem Interface.text_eq (i : Interface) : i.text =
    "export interface " ++ i.name ++ (heritage i.parent i.omitted ++ " \x7b\n")
      ++ String.join (i.members.map Property.text) ++ "\x7d" := by
  rw [← String.append_assoc]
  rfl

theorem Interface.stands_name (i : Interface) : Stands i.name i.text := by
  obtain ⟨c, more, hstart, hc⟩ := starts_heritage i.parent i.omitted ['\x7b', '\n']
  have hhead : (heritage i.parent i.omitted ++ " \x7b\n").toList.head?.any isGap := by
    have hlist : (heritage i.parent i.omitted ++ " \x7b\n").toList = c :: more := by
      rw [String.toList_append, ← hstart]
      rfl
    rw [hlist, List.head?_cons, Option.any_some, hc]
  rw [i.text_eq]
  exact ((Stands.between (by decide) hhead _).append_right _).append_right _

/-- What stands in the heritage stands in the interface. -/
theorem Interface.within_heritage (i : Interface) :
    Within (heritage i.parent i.omitted ++ " \x7b\n") i.text := by
  rw [i.text_eq]
  exact (((Within.refl _).append_left _).append_right _).append_right _

theorem Interface.stands_parent {parent : String} (hp : i.parent = some parent) :
    Stands parent i.text := by
  refine Stands.within ?_ i.within_heritage
  rw [hp, heritage]
  split
  · exact .between (by decide) (by decide) _
  · have homit : Stands parent (" extends Omit<" ++ parent ++ ", ") :=
      .between (by decide) (by decide) _
    exact (homit.append_right _).append_right _ |>.append_right _

/-- The word is there where names are left out of the parent. -/
theorem Interface.stands_omit {parent : String} (hp : i.parent = some parent)
    (homitted : i.omitted ≠ []) : Stands "Omit" i.text := by
  refine Stands.within ?_ i.within_heritage
  have hword : Stands "Omit" (" extends " ++ "Omit" ++ "<") := .between (by decide) (by decide) _
  have hhead : " extends " ++ "Omit" ++ "<" = " extends Omit<" := by decide
  rw [hhead] at hword
  rw [hp, heritage, if_neg (by simpa using homitted)]
  exact ((((hword.append_right _).append_right _).append_right _).append_right _).append_right _

theorem Interface.within_member (hp : p ∈ i.members) : Within p.text i.text := by
  rw [i.text_eq]
  exact ((Within.join (List.mem_map_of_mem hp)).append_left _).append_right _

theorem Interface.stands_typeText (hp : p ∈ i.members) : Stands p.typeText i.text := by
  refine Stands.within ?_ (Interface.within_member hp)
  rw [p.text_eq]
  exact .between (any_getLast?_append (by decide) _) (by decide) _

/-- The words of the declarations are printed. -/
theorem helperWords_subset {names : TypeNames} {d : DefinitionView} {file : String}
    (h : Within (Interface.ofDefinition names d).text file) :
    helperWords d ⊆ printedWords file := by
  rw [helperWords]
  split
  next hleft =>
    obtain ⟨hsome, hany⟩ := Bool.and_eq_true_iff.mp hleft
    obtain ⟨parent, hparent⟩ := Option.isSome_iff_exists.mp hsome
    obtain ⟨f, hf, hover⟩ := List.any_eq_true.mp hany
    have hi : (Interface.ofDefinition names d).parent = some (interfaceName names parent) :=
      congrArg (Option.map _) hparent
    have homitted : f.name ∈ (Interface.ofDefinition names d).omitted := by
      have hlisted : (Interface.ofDefinition names d).omitted =
          ((if d.parent.isSome then d.ownFields else d.fields).filter
            fun f => f.overrides.isSome).map (·.name) := rfl
      rw [hlisted, if_pos hsome]
      exact List.mem_map_of_mem (List.mem_filter.mpr ⟨hf, hover⟩)
    have hstands := (Interface.stands_omit hi (List.ne_nil_of_mem homitted)).within h
    exact List.cons_subset.mpr ⟨hstands.mem_printedWords (by decide), List.nil_subset _⟩
  · exact List.nil_subset _

end Interfaces

end RecordDefinitions
