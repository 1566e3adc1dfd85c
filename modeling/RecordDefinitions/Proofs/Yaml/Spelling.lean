import RecordDefinitions.Proofs.Outcome
import RecordDefinitions.Yaml.Declarations

/-!
# Trees that spell documents

A tree without tags in which every scalar denotes what stands in its place is read as that
document, whatever the place asks for: a name, a truth value or a value of any kind.
-/

namespace RecordDefinitions.Yaml

/-! ## Scalars -/

theorem ScalarValue.document?_eq_string_iff {value : ScalarValue} {text s : String} :
    value.document? text = some (.string s) ↔ value = .string ∧ text = s := by
  cases value <;> simp [document?, integerDocument?]

theorem ScalarValue.document?_eq_bool_iff {value : ScalarValue} {text : String} {b : Bool} :
    value.document? text = some (.bool b) ↔ value = .bool b := by
  cases value <;> simp [document?, integerDocument?]

theorem real?_ne_bool (text : List Char) (b : Bool) : real? text ≠ some (.bool b) := by
  unfold real?
  grind

theorem boolWord?_of_plainValue {text : String} {b : Bool} (h : plainValue text = .bool b) :
    boolWord? text = some b := by
  unfold plainValue at h
  split at h
  · cases h
  · cases hword : boolWord? text with
    | some word =>
      rw [hword] at h
      cases h
      rfl
    | none =>
      rw [hword] at h
      dsimp only at h
      split at h
      · cases h
      · split at h
        · cases h
        · cases hreal : real? text.toList with
          | none =>
            rw [hreal] at h
            cases h
          | some value =>
            rw [hreal] at h
            exact absurd (hreal.trans (congrArg some h)) (real?_ne_bool _ _)

namespace Scalar

variable {s : Scalar} {d : Document}

/-- What a scalar without a tag denotes when its type is open. -/
def untagged (s : Scalar) : ScalarValue := if s.style = .plain then plainValue s.text else .string

/-- Whether a scalar has no tag and denotes a document. -/
def spells (s : Scalar) (d : Document) : Bool := s.tag.isNone && s.document? = some d

theorem spells_iff : s.spells d ↔ s.tag = none ∧ s.untagged.document? s.text = some d := by
  simp only [spells, Bool.and_eq_true, Option.isNone_iff_eq_none, decide_eq_true_eq]
  refine and_congr_right fun htag => ?_
  rw [document?, value?, htag]
  rfl

theorem document_of_spells (h : s.spells d) : s.document = .ok d := by
  have hdocument : s.document? = some d := of_decide_eq_true (Bool.and_eq_true_iff.mp h).2
  rw [document, hdocument]

section Name

variable {name : String} (h : s.spells (.string name))
include h

theorem text_of_spells : s.text = name :=
  (ScalarValue.document?_eq_string_iff.mp (spells_iff.mp h).2).2

/-- What stands plain in place of a name is no word for null. -/
theorem optionalName_of_spells : s.optionalName = .ok (.string name) := by
  obtain ⟨htag, hdocument⟩ := spells_iff.mp h
  obtain ⟨huntagged, rfl⟩ := ScalarValue.document?_eq_string_iff.mp hdocument
  by_cases hplain : s.style = .plain
  · rw [untagged, if_pos hplain] at huntagged
    have hnull : (s.text.isEmpty || isNullWord s.text) = false := by
      rw [← Bool.not_eq_true]
      intro hnull
      rw [plainValue, if_pos hnull] at huntagged
      cases huntagged
    rw [optionalName, if_neg (not_not_intro hplain), htag, hnull]
    rfl
  · rw [optionalName, if_pos hplain]

end Name

theorem truth_of_spells {b : Bool} (h : s.spells (.bool b)) : s.truth = .ok (.bool b) := by
  obtain ⟨-, hdocument⟩ := spells_iff.mp h
  have huntagged := ScalarValue.document?_eq_bool_iff.mp hdocument
  have hplain : s.style = .plain := by
    by_contra hstyle
    rw [untagged, if_neg hstyle] at huntagged
    cases huntagged
  rw [untagged, if_pos hplain] at huntagged
  have hword : boolWord? s.text = some b := boolWord?_of_plainValue huntagged
  simp [truth, hplain, hword]

end Scalar

/-! ## Trees -/

namespace Tree

mutual

/-- Whether a tree is the document in plain writing: no tags, and every key is a string. -/
def spells : Tree → Document → Bool
  | .scalar s, d => s.spells d
  | .sequence none items, .array ds => spellsItems items ds
  | .mapping none entries, .object members => spellsMembers entries members
  | _, _ => false

def spellsItems : List Tree → List Document → Bool
  | [], [] => true
  | t :: ts, d :: ds => spells t d && spellsItems ts ds
  | _, _ => false

def spellsMembers : List (Tree × Tree) → List (String × Document) → Bool
  | [], [] => true
  | (k, t) :: entries, (key, d) :: members =>
    spells k (.string key) && spells t d && spellsMembers entries members
  | _, _ => false

end

variable {t k : Tree} {d : Document} {name : String}

mutual

/-- A tree that spells a document is that document inside a field. -/
theorem fieldValue_of_spells (t : Tree) (d : Document) (h : t.spells d) :
    t.fieldValue = .ok d := by
  cases t with
  | scalar s =>
    rw [spells] at h
    rw [fieldValue, Scalar.document_of_spells h]
  | sequence tag items =>
    cases tag with
    | some tag => simp [spells] at h
    | none =>
      cases d with
      | array ds =>
        rw [spells] at h
        rw [fieldValue, fieldValues_of_spells items ds h]
        rfl
      | _ => simp [spells] at h
  | mapping tag entries =>
    cases tag with
    | some tag => simp [spells] at h
    | none =>
      cases d with
      | object members =>
        rw [spells] at h
        rw [fieldValue, fieldMembers_of_spells entries members h]
        rfl
      | _ => simp [spells] at h

theorem fieldValues_of_spells (items : List Tree) (ds : List Document) (h : spellsItems items ds) :
    fieldValues items = .ok ds := by
  cases items with
  | nil =>
    cases ds with
    | nil => rw [fieldValues]
    | cons => simp [spellsItems] at h
  | cons t items =>
    cases ds with
    | nil => simp [spellsItems] at h
    | cons d ds =>
      rw [spellsItems, Bool.and_eq_true] at h
      rw [fieldValues, fieldValue_of_spells t d h.1, fieldValues_of_spells items ds h.2]
      rfl

theorem fieldMembers_of_spells (entries : List (Tree × Tree)) (members : List (String × Document))
    (h : spellsMembers entries members) : fieldMembers entries = .ok members := by
  rcases entries with _ | ⟨⟨k, t⟩, entries⟩
  · cases members with
    | nil => rw [fieldMembers]
    | cons => simp [spellsMembers] at h
  · rcases members with _ | ⟨⟨key, d⟩, members⟩
    · simp [spellsMembers] at h
    · simp only [spellsMembers, Bool.and_eq_true] at h
      obtain ⟨⟨hkey, ht⟩, hrest⟩ := h
      rw [fieldMembers, fieldValue_of_spells k (.string key) hkey, fieldValue_of_spells t d ht,
        fieldMembers_of_spells entries members hrest]
      rfl

end

/-- Lists and objects are spelled by sequences and mappings, everything else by scalars. -/
theorem exists_scalar_of_spells (harray : d.asArray? = none) (hobject : d.asObject? = none)
    (h : t.spells d) : ∃ s : Scalar, t = .scalar s ∧ s.spells d := by
  cases t with
  | scalar s =>
    rw [spells] at h
    exact ⟨s, rfl, h⟩
  | sequence tag items =>
    cases d with
    | array => cases harray
    | _ => cases tag <;> simp [spells] at h
  | mapping tag entries =>
    cases d with
    | object => cases hobject
    | _ => cases tag <;> simp [spells] at h

theorem key_of_spells (h : k.spells (.string name)) : k.key = .ok name := by
  obtain ⟨s, rfl, hs⟩ := exists_scalar_of_spells rfl rfl h
  rw [key, Scalar.text_of_spells hs]

/-- Only mappings spell objects. -/
theorem exists_mapping_of_spells {members : List (String × Document)}
    (h : t.spells (.object members)) :
    ∃ entries, t = .mapping none entries ∧ spellsMembers entries members := by
  cases t with
  | scalar s =>
    rw [spells] at h
    have hdocument := (Scalar.spells_iff.mp h).2
    cases hvalue : s.untagged <;> simp [hvalue, ScalarValue.document?, integerDocument?] at hdocument
  | sequence tag items => cases tag <;> simp [spells] at h
  | mapping tag entries =>
    cases tag with
    | none =>
      rw [spells] at h
      exact ⟨entries, rfl, h⟩
    | some tag => simp [spells] at h

/-! ## Places -/

theorem forall₂_of_spellsMembers {entries : List (Tree × Tree)} {members : List (String × Document)}
    (h : spellsMembers entries members) :
    List.Forall₂ (fun entry member => entry.1.spells (.string member.1) ∧ entry.2.spells member.2)
      entries members := by
  induction entries generalizing members with
  | nil =>
    cases members with
    | nil => exact .nil
    | cons => simp [spellsMembers] at h
  | cons entry entries ih =>
    cases members with
    | nil => simp [spellsMembers] at h
    | cons member members =>
      simp only [spellsMembers, Bool.and_eq_true] at h
      exact .cons h.1 (ih h.2)

/-- Members of an object whose keys are names or fixed keys are read one by one. -/
theorem mapM_of_spellsMembers (value : String → Tree → Except Fault Document)
    {entries : List (Tree × Tree)} {members : List (String × Document)}
    (h : spellsMembers entries members)
    (hvalue : ∀ member ∈ members, ∀ t : Tree, t.spells member.2 → value member.1 t = .ok member.2) :
    (entries.mapM fun (k, t) => do
      let k ← key k
      return (k, ← value k t)) = .ok members := by
  have hentries := forall₂_of_spellsMembers h
  rw [mapM_eq_ok_iff]
  clear h
  induction hentries with
  | nil => exact .nil
  | @cons entry member _ _ hentry _ ih =>
    refine .cons ?_ (ih fun m hm => hvalue m (List.mem_cons_of_mem _ hm))
    refine bind_eq_ok_iff.mpr ⟨member.1, key_of_spells hentry.1, ?_⟩
    exact bind_eq_ok_iff.mpr ⟨member.2, hvalue member List.mem_cons_self entry.2 hentry.2, rfl⟩

theorem named_of_spells {value : Tree → Except Fault Document} {members : List (String × Document)}
    (h : t.spells (.object members))
    (hvalue : ∀ member ∈ members, ∀ t : Tree, t.spells member.2 → value t = .ok member.2) :
    named value t = .ok (.object members) := by
  obtain ⟨entries, rfl, hentries⟩ := exists_mapping_of_spells h
  exact congrArg (Except.map Document.object) (mapM_of_spellsMembers (fun _ => value) hentries hvalue)

theorem markName_of_spells (h : k.spells (.string name)) : k.markName = .ok name := by
  rw [markName, fieldValue_of_spells k _ h]
  rfl

/-- Numbers that are not finite have no place in a document and spell null. -/
theorem eq_null_of_isNotFinite (h : t.spells d) (hinfinite : t.isNotFinite) : d = .null := by
  cases t with
  | scalar s =>
    rw [spells] at h
    obtain ⟨htag, hdocument⟩ := Scalar.spells_iff.mp h
    have hvalue : s.value? = some s.untagged := by
      rw [Scalar.value?, htag]
      rfl
    rw [isNotFinite, hvalue] at hinfinite
    cases huntagged : s.untagged with
    | notFinite =>
      rw [huntagged] at hdocument
      exact (Option.some.inj hdocument).symm
    | _ => simp [huntagged] at hinfinite
  | sequence => cases hinfinite
  | mapping => cases hinfinite

/-- The marks of a field, under their keys. Only a default may be null. -/
theorem marks_of_spellsMembers {entries : List (Tree × Tree)} {members : List (String × Document)}
    (h : spellsMembers entries members)
    (hnull : ∀ member ∈ members, member.2 = .null → member.1 = "defaultValue") :
    marks entries = .ok members := by
  have hentries := forall₂_of_spellsMembers h
  clear h
  induction hentries with
  | nil => rw [marks]
  | @cons entry member entries members hentry _ ih =>
    have hmark : mark member.1 entry.2 = .ok member.2 := by
      have hplace : ¬ (member.1 ≠ "defaultValue" ∧ entry.2.isNotFinite) :=
        fun ⟨hname, hinfinite⟩ =>
          hname (hnull member List.mem_cons_self (eq_null_of_isNotFinite hentry.2 hinfinite))
      rw [mark, if_neg hplace, fieldValue_of_spells entry.2 member.2 hentry.2]
    rw [marks, markName_of_spells hentry.1, ih fun m hm => hnull m (List.mem_cons_of_mem _ hm)]
    change (do return (member.1, ← mark member.1 entry.2) :: members) = _
    rw [hmark]
    rfl

end Tree

end RecordDefinitions.Yaml
