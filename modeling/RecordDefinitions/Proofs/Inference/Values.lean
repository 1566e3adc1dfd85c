import RecordDefinitions.Inference.Basic
import RecordDefinitions.Proofs.Document.Parts
import RecordDefinitions.Proofs.Outcome

/-!
# The values that are looked at together

Which values stand at a key of some samples, and which objects and items are found among
some values. Each of them is a part of what it was found in and is nested less deeply.
-/

namespace RecordDefinitions.Inference

/-- The objects among some values. -/
def objectsOf (values : List Document) : List Sample := values.filterMap Document.asObject?

/-- The items other than null of all lists among some values. -/
def itemsOf (values : List Document) : List Document :=
  (values.filterMap Document.asArray?).flatten.filter fun d => !d.isNull

theorem asObject?_eq_some_iff {d : Document} {s : Sample} :
    d.asObject? = some s ↔ d = .object s := by
  cases d <;> simp [Document.asObject?]

theorem asArray?_eq_some_iff {d : Document} {items : List Document} :
    d.asArray? = some items ↔ d = .array items := by
  cases d <;> simp [Document.asArray?]

/-- Every value but null has a kind. -/
theorem exists_kindOf? {d : Document} (h : d ≠ .null) : ∃ kind, kindOf? d = some kind := by
  cases d with
  | null => exact absurd rfl h
  | number n => cases n <;> exact ⟨_, rfl⟩
  | _ => exact ⟨_, rfl⟩

theorem exists_object_of_kindOf? {d : Document} (h : kindOf? d = some .object) :
    ∃ s, d = .object s := by
  cases d with
  | number n => cases n <;> cases h
  | object s => exact ⟨s, rfl⟩
  | _ => cases h

theorem mem_objectsOf {values : List Document} {s : Sample} :
    s ∈ objectsOf values ↔ .object s ∈ values := by
  simp [objectsOf, asObject?_eq_some_iff]

theorem mem_itemsOf {values : List Document} {d : Document} :
    d ∈ itemsOf values ↔ d ≠ .null ∧ ∃ items, .array items ∈ values ∧ d ∈ items := by
  simp only [itemsOf, List.mem_filter, List.mem_flatten, List.mem_filterMap, asArray?_eq_some_iff,
    Bool.not_eq_true', ← Bool.not_eq_true, Document.isNull_iff]
  constructor
  · rintro ⟨⟨items, ⟨_, hm, rfl⟩, hd⟩, hnull⟩
    exact ⟨hnull, items, hm, hd⟩
  · rintro ⟨hnull, items, hm, hd⟩
    exact ⟨⟨items, ⟨_, hm, rfl⟩, hd⟩, hnull⟩

theorem mem_valuesAt {samples : List Sample} {key : String} {d : Document} :
    d ∈ valuesAt samples key ↔ d ≠ .null ∧ ∃ s ∈ samples, valueOf? key s = some d := by
  simp only [valuesAt, List.mem_filter, List.mem_filterMap, Bool.not_eq_true',
    ← Bool.not_eq_true, Document.isNull_iff, and_comm]

theorem exists_of_valueOf? {key : String} {s : Sample} {d : Document}
    (h : valueOf? key s = some d) : ∃ m ∈ s, m.1 = key ∧ m.2 = d := by
  obtain ⟨m, hm, rfl⟩ := Option.map_eq_some_iff.mp h
  exact ⟨m, List.mem_of_find?_eq_some hm, by simpa using List.find?_some hm, rfl⟩

/-- Every sample has a value other than null at a key if there are as many values as
samples, since each sample has at most one. -/
theorem length_valuesAt_eq_iff {samples : List Sample} {key : String} :
    (valuesAt samples key).length = samples.length ↔
      ∀ s ∈ samples, ∃ d, valueOf? key s = some d ∧ d ≠ .null := by
  have hle (samples : List Sample) : (valuesAt samples key).length ≤ samples.length :=
    Nat.le_trans (List.length_filter_le _ _) (List.length_filterMap_le _ _)
  induction samples with
  | nil => simp [valuesAt]
  | cons s samples ih =>
    have hrest := hle samples
    rw [List.forall_mem_cons, ih.symm]
    cases hs : valueOf? key s with
    | none =>
      have hskip : valuesAt (s :: samples) key = valuesAt samples key := by simp [valuesAt, hs]
      rw [hskip, List.length_cons]
      constructor
      · omega
      · rintro ⟨⟨_, hd, -⟩, -⟩
        cases hd
    | some d =>
      by_cases hd : d.isNull
      · have hskip : valuesAt (s :: samples) key = valuesAt samples key := by
          simp [valuesAt, hs, hd]
        rw [hskip, List.length_cons]
        constructor
        · omega
        · rintro ⟨⟨_, hsame, hnull⟩, -⟩
          cases hsame
          exact absurd (Document.isNull_iff.mp hd) hnull
      · have hkeep : valuesAt (s :: samples) key = d :: valuesAt samples key := by
          simp [valuesAt, hs, hd]
        rw [hkeep, List.length_cons, List.length_cons, Nat.add_right_cancel_iff]
        have hnull : d ≠ .null := fun e => hd (Document.isNull_iff.mpr e)
        exact ⟨fun h => ⟨⟨d, rfl, hnull⟩, h⟩, fun h => h.2⟩

/-! ## Samples -/

/-- The samples in a document: an object is its only sample, a list consists of samples. -/
inductive HoldsSamples : Document → List Sample → Prop
  | one (s : Sample) : HoldsSamples (.object s) [s]
  | list {samples : List Sample} :
    samples ≠ [] → HoldsSamples (.array (samples.map .object)) samples

theorem holdsSamples_of_samplesOf {d : Document} {samples : List Sample}
    (h : samplesOf d = .ok samples) : HoldsSamples d samples := by
  cases d with
  | object s =>
    cases h
    exact .one s
  | array items =>
    cases items with
    | nil => cases h
    | cons item items =>
      have hitems : item :: items = samples.map .object := by
        refine List.forall₂_eq_eq_eq ▸ List.forall₂_map_right_iff.mpr ?_
        refine (mapM_eq_ok_iff.mp h).imp fun item s hs => ?_
        cases item <;> cases hs
        rfl
      rw [hitems]
      refine .list ?_
      rintro rfl
      cases hitems
  | _ => cases h

theorem samplesOf_of_holdsSamples {d : Document} {samples : List Sample}
    (h : HoldsSamples d samples) : samplesOf d = .ok samples := by
  cases h with
  | one s => rfl
  | list hne =>
    rcases samples with _ | ⟨s, samples⟩
    · exact absurd rfl hne
    · refine mapM_eq_ok_iff.mpr ?_
      rw [List.forall₂_map_left_iff, List.forall₂_same]
      intro _ _
      rfl

theorem HoldsSamples.ne_nil {d : Document} {samples : List Sample} (h : HoldsSamples d samples) :
    samples ≠ [] := by
  cases h with
  | one s => exact List.cons_ne_nil _ _
  | list hne => exact hne

theorem HoldsSamples.mem_parts {d : Document} {samples : List Sample} (h : HoldsSamples d samples)
    {s : Sample} (hs : s ∈ samples) : .object s ∈ d.parts := by
  cases h with
  | one s' =>
    rw [List.mem_singleton.mp hs]
    exact Document.mem_parts_self _
  | list _ => exact Document.mem_parts_of_item (List.mem_map_of_mem hs)

/-! ## Depth -/

theorem depthOf_le_depthOfItems {items : List Document} {d : Document} (h : d ∈ items) :
    depthOf d ≤ depthOfItems items := by
  induction items with
  | nil => cases h
  | cons e items ih =>
    rw [depthOfItems]
    rcases List.mem_cons.mp h with rfl | h
    · exact Nat.le_max_left _ _
    · exact Nat.le_trans (ih h) (Nat.le_max_right _ _)

theorem depthOf_le_depthOfMembers {members : Sample} {m : String × Document} (h : m ∈ members) :
    depthOf m.2 ≤ depthOfMembers members := by
  induction members with
  | nil => cases h
  | cons e members ih =>
    rw [depthOfMembers]
    rcases List.mem_cons.mp h with rfl | h
    · exact Nat.le_max_left _ _
    · exact Nat.le_trans (ih h) (Nat.le_max_right _ _)

theorem depthOf_pos (d : Document) : 0 < depthOf d := by
  cases d <;> simp [depthOf]

theorem depthOf_lt_of_item {items : List Document} {d : Document} (h : d ∈ items) :
    depthOf d < depthOf (.array items) := by
  rw [depthOf]
  exact Nat.lt_succ_of_le (depthOf_le_depthOfItems h)

theorem depthOf_lt_of_valueOf? {key : String} {s : Sample} {d : Document}
    (h : valueOf? key s = some d) : depthOf d < depthOf (.object s) := by
  obtain ⟨m, hm, -, rfl⟩ := exists_of_valueOf? h
  rw [depthOf]
  exact Nat.lt_succ_of_le (depthOf_le_depthOfMembers hm)

/-! ## Parts of a document that are nested up to a depth -/

/-- Values that are found in a document and are nested up to a depth; null is none. -/
def Found (d : Document) (depth : Nat) (values : List Document) : Prop :=
  ∀ v ∈ values, v ≠ .null ∧ v ∈ d.parts ∧ depthOf v ≤ depth

/-- Samples that are found in a document and are nested up to a depth. -/
def FoundSamples (d : Document) (depth : Nat) (samples : List Sample) : Prop :=
  ∀ s ∈ samples, .object s ∈ d.parts ∧ depthOf (.object s) ≤ depth

variable {d : Document} {depth : Nat}

theorem Found.eq_nil {values : List Document} (h : Found d 0 values) : values = [] := by
  rw [List.eq_nil_iff_forall_not_mem]
  intro v hv
  have hpos := depthOf_pos v
  have hle := (h v hv).2.2
  omega

theorem Found.objectsOf {values : List Document} (h : Found d depth values) :
    FoundSamples d depth (objectsOf values) :=
  fun _ hs => (h _ (mem_objectsOf.mp hs)).2

theorem Found.itemsOf {values : List Document} (h : Found d (depth + 1) values) :
    Found d depth (itemsOf values) := by
  intro v hv
  obtain ⟨hnull, items, hm, hitem⟩ := mem_itemsOf.mp hv
  obtain ⟨-, hpart, hdepth⟩ := h _ hm
  have hlt := depthOf_lt_of_item hitem
  exact ⟨hnull, Document.parts_subset d _ hpart v (Document.mem_parts_of_item hitem), by omega⟩

theorem FoundSamples.valuesAt {samples : List Sample} (h : FoundSamples d (depth + 1) samples)
    (key : String) : Found d depth (valuesAt samples key) := by
  intro v hv
  obtain ⟨hnull, s, hs, hvalue⟩ := mem_valuesAt.mp hv
  obtain ⟨hpart, hdepth⟩ := h s hs
  have hlt := depthOf_lt_of_valueOf? hvalue
  obtain ⟨m, hm, -, rfl⟩ := exists_of_valueOf? hvalue
  exact ⟨hnull, Document.parts_subset d _ hpart m.2 (Document.mem_parts_of_member hm), by omega⟩

end RecordDefinitions.Inference
