import RecordDefinitions.Generation.Names
import RecordDefinitions.Proofs.Naming.TypeNames
import RecordDefinitions.Proofs.Resolution.Substitution
import RecordDefinitions.View.Projection

/-!
# Names of generated types

Every definition of a view gets a type of its own, whose name starts with a capital letter. The
name is that of the class, or it is coined: it ends with `Type` or with a number.
-/

namespace RecordDefinitions.Generation

/-- The name that a definition asks for. -/
def baseName (isReserved : String → Bool) (d : DefinitionView) : String :=
  if isReserved d.className then d.className ++ "Type" else d.className

/-- The names of the types. -/
def typeWords (names : TypeNames) : List String := names.map Prod.snd

/-- Whether a word ends as names do that had `Type` or a number put behind them. -/
def isCoined (word : String) : Bool :=
  "Type".toList.isSuffixOf word.toList || word.toList.getLast?.any Char.isDigit

variable {isReserved : String → Bool} {used : List String} {ds : List DefinitionView}

theorem nameTypes_cons (isReserved : String → Bool) (used : List String) (d : DefinitionView)
    (ds : List DefinitionView) :
    nameTypes isReserved used (d :: ds) =
      (d.name, Naming.uniqueName used (baseName isReserved d)) ::
        nameTypes isReserved (Naming.uniqueName used (baseName isReserved d) :: used) ds := rfl

theorem map_fst_nameTypes (isReserved : String → Bool) (used : List String)
    (ds : List DefinitionView) :
    (nameTypes isReserved used ds).map Prod.fst = ds.map (·.name) := by
  induction ds generalizing used with
  | nil => rfl
  | cons d ds ih => rw [nameTypes_cons, List.map_cons, List.map_cons, ih]

/-! ## No name is given twice -/

theorem typeWords_nameTypes (isReserved : String → Bool) (used : List String)
    (ds : List DefinitionView) :
    typeWords (nameTypes isReserved used ds) =
      Naming.uniqueNames used (ds.map (baseName isReserved)) := by
  induction ds generalizing used with
  | nil => rfl
  | cons d ds ih =>
    rw [nameTypes_cons, typeWords, List.map_cons, List.map_cons, Naming.uniqueNames, ← ih]
    rfl

theorem typeWords_fresh (isReserved : String → Bool) (used : List String)
    (ds : List DefinitionView) :
    (typeWords (nameTypes isReserved used ds)).Nodup ∧
      ∀ word ∈ typeWords (nameTypes isReserved used ds), word ∉ used := by
  rw [typeWords_nameTypes]
  exact Naming.uniqueNames_fresh used _

theorem exists_lookup_of_mem {d : DefinitionView} (hd : d ∈ ds) (isReserved : String → Bool)
    (used : List String) : ∃ word, (nameTypes isReserved used ds).lookup d.name = some word := by
  have hname : d.name ∈ (nameTypes isReserved used ds).map Prod.fst := by
    rw [map_fst_nameTypes]
    exact List.mem_map_of_mem hd
  obtain ⟨entry, hentry, hfst⟩ := List.mem_map.mp hname
  refine Option.isSome_iff_exists.mp (List.lookup_isSome_iff.mpr ⟨entry, hentry, ?_⟩)
  exact beq_iff_eq.mpr hfst.symm

theorem mem_of_lookup {names : TypeNames} {name word : String} (h : names.lookup name = some word) :
    (name, word) ∈ names := by
  obtain ⟨before, after, hnames, -⟩ := List.lookup_eq_some_iff.mp h
  rw [hnames]
  exact List.mem_append_right before List.mem_cons_self

/-- Definitions whose types have one name are the same. -/
theorem eq_of_lookup {a b word : String}
    (ha : (nameTypes isReserved used ds).lookup a = some word)
    (hb : (nameTypes isReserved used ds).lookup b = some word) : a = b := by
  have hinjective := List.inj_on_of_nodup_map (typeWords_fresh isReserved used ds).1
  exact congrArg Prod.fst (hinjective (mem_of_lookup ha) (mem_of_lookup hb) rfl)

/-! ## Where a name comes from -/

theorem baseName_taken {d : DefinitionView} (hd : d ∈ ds) (used : List String) :
    baseName isReserved d ∈ used ∨
      baseName isReserved d ∈ typeWords (nameTypes isReserved used ds) := by
  rw [typeWords_nameTypes]
  exact Naming.mem_or_mem_uniqueNames (List.mem_map_of_mem hd) used

theorem exists_of_mem_typeWords {word : String}
    (h : word ∈ typeWords (nameTypes isReserved used ds)) :
    ∃ d ∈ ds, word = baseName isReserved d ∨
      ∃ n, word = Naming.numbered (baseName isReserved d) n := by
  rw [typeWords_nameTypes] at h
  obtain ⟨base, hbase, taken, rfl⟩ := Naming.exists_of_mem_uniqueNames h
  obtain ⟨d, hd, rfl⟩ := List.mem_map.mp hbase
  exact ⟨d, hd, Naming.uniqueName_eq_or taken _⟩

theorem isTypeName_baseName {d : DefinitionView} (h : Naming.isTypeName d.className.toList) :
    Naming.isTypeName (baseName isReserved d).toList := by
  rw [baseName]
  split
  · obtain ⟨⟨c, rest, hname, hupper⟩, hall⟩ := Naming.isTypeName_iff.mp h
    have hword : Naming.isTypeName "Type".toList := rfl
    rw [String.toList_append, Naming.isTypeName_iff]
    refine ⟨⟨c, rest ++ "Type".toList, by rw [hname, List.cons_append], hupper⟩, fun e he => ?_⟩
    rcases List.mem_append.mp he with he | he
    · exact hall e he
    · exact (Naming.isTypeName_iff.mp hword).2 e he
  · exact h

/-- The names of types start with a capital letter, as those of classes do. -/
theorem isTypeName_of_mem_typeWords
    (hclass : ∀ d ∈ ds, Naming.isTypeName d.className.toList) {word : String}
    (h : word ∈ typeWords (nameTypes isReserved used ds)) : Naming.isTypeName word.toList := by
  obtain ⟨d, hd, hbase | ⟨n, hnumbered⟩⟩ := exists_of_mem_typeWords h
  · rw [hbase]
    exact isTypeName_baseName (hclass d hd)
  · rw [hnumbered]
    exact Naming.isTypeName_numbered (isTypeName_baseName (hclass d hd)) n

theorem isCoined_append (base : String) : isCoined (base ++ "Type") := by
  rw [isCoined, String.toList_append, List.isSuffixOf_iff_suffix.mpr (List.suffix_append _ _),
    Bool.true_or]

theorem isCoined_numbered (base : String) (n : Nat) : isCoined (Naming.numbered base n) := by
  have htext : (Naming.numbered base n).toList = base.toList ++ Decimal.digits n := by
    rw [Naming.numbered, Decimal.text, String.toList_append, String.toList_ofList]
  have hlast : (Naming.numbered base n).toList.getLast?.any Char.isDigit = true := by
    rw [htext, List.getLast?_append_of_ne_nil _ (Decimal.digits_ne_nil n),
      List.getLast?_eq_some_getLast (Decimal.digits_ne_nil n)]
    exact Decimal.isDigit_of_mem_digits (List.getLast_mem _)
  rw [isCoined, hlast, Bool.or_true]

theorem isCoined_or_exists_class {word : String}
    (h : word ∈ typeWords (nameTypes isReserved used ds)) :
    isCoined word ∨ isReserved word = false ∧ ∃ d ∈ ds, d.className = word := by
  obtain ⟨d, hd, hbase | ⟨n, hnumbered⟩⟩ := exists_of_mem_typeWords h
  · rw [hbase, baseName]
    split
    · exact Or.inl (isCoined_append d.className)
    · rename_i hclass
      exact Or.inr ⟨eq_false_of_ne_true hclass, d, hd, rfl⟩
  · rw [hnumbered]
    exact Or.inl (isCoined_numbered _ n)

/-- A word that is neither reserved nor coined is the name of a type if and only if it is the name
of a class. -/
theorem mem_typeWords_iff {word : String} (hreserved : isReserved word = false)
    (hcoined : isCoined word = false) :
    word ∈ typeWords (nameTypes isReserved [] ds) ↔ ∃ d ∈ ds, d.className = word := by
  constructor
  · intro hword
    rcases isCoined_or_exists_class hword with h | ⟨-, hclass⟩
    · rw [hcoined] at h
      cases h
    · exact hclass
  · rintro ⟨d, hd, rfl⟩
    have hbase : baseName isReserved d = d.className := by
      rw [baseName, hreserved, if_neg Bool.false_ne_true]
    rw [← hbase]
    rcases baseName_taken hd [] with hused | hword
    · cases hused
    · exact hword

end RecordDefinitions.Generation
