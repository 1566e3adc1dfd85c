import RecordDefinitions.Import.Pointer

/-!
# Parts of documents

All documents that stand somewhere in a document, the document itself included.
Whatever is looked up in a document, by keys or by a pointer, is one of its parts.
-/

namespace RecordDefinitions

namespace Document

mutual

/-- The document and everything inside it. -/
def parts : Document → List Document
  | null => [null]
  | bool b => [bool b]
  | number n => [number n]
  | string s => [string s]
  | array items => array items :: partsOfItems items
  | object members => object members :: partsOfMembers members

def partsOfItems : List Document → List Document
  | [] => []
  | d :: ds => parts d ++ partsOfItems ds

def partsOfMembers : List (String × Document) → List Document
  | [] => []
  | (_, d) :: rest => parts d ++ partsOfMembers rest

end

theorem mem_parts_self (d : Document) : d ∈ d.parts := by
  cases d <;> simp [parts]

theorem mem_partsOfItems {items : List Document} {d x : Document} (hd : d ∈ items)
    (hx : x ∈ d.parts) : x ∈ partsOfItems items := by
  induction items with
  | nil => cases hd
  | cons e items ih =>
    rw [partsOfItems, List.mem_append]
    rcases List.mem_cons.mp hd with rfl | hd
    · exact Or.inl hx
    · exact Or.inr (ih hd)

theorem mem_partsOfMembers {members : List (String × Document)} {m : String × Document}
    {x : Document} (hm : m ∈ members) (hx : x ∈ m.2.parts) : x ∈ partsOfMembers members := by
  induction members with
  | nil => cases hm
  | cons e members ih =>
    obtain ⟨k, d⟩ := e
    rw [partsOfMembers, List.mem_append]
    rcases List.mem_cons.mp hm with rfl | hm
    · exact Or.inl hx
    · exact Or.inr (ih hm)

mutual

/-- Parts of a part are parts. -/
theorem parts_subset : (d : Document) → ∀ x ∈ d.parts, ∀ y ∈ x.parts, y ∈ d.parts
  | null, x, hx, y, hy => by
    rw [parts, List.mem_singleton] at hx
    rwa [hx] at hy
  | bool b, x, hx, y, hy => by
    rw [parts, List.mem_singleton] at hx
    rwa [hx] at hy
  | number n, x, hx, y, hy => by
    rw [parts, List.mem_singleton] at hx
    rwa [hx] at hy
  | string s, x, hx, y, hy => by
    rw [parts, List.mem_singleton] at hx
    rwa [hx] at hy
  | array items, x, hx, y, hy => by
    rw [parts, List.mem_cons] at hx ⊢
    rcases hx with rfl | hx
    · rwa [parts, List.mem_cons] at hy
    · exact Or.inr (partsOfItems_subset items x hx y hy)
  | object members, x, hx, y, hy => by
    rw [parts, List.mem_cons] at hx ⊢
    rcases hx with rfl | hx
    · rwa [parts, List.mem_cons] at hy
    · exact Or.inr (partsOfMembers_subset members x hx y hy)

theorem partsOfItems_subset : (items : List Document) →
    ∀ x ∈ partsOfItems items, ∀ y ∈ x.parts, y ∈ partsOfItems items
  | [], x, hx, y, hy => by cases hx
  | d :: ds, x, hx, y, hy => by
    rw [partsOfItems, List.mem_append] at hx ⊢
    rcases hx with hx | hx
    · exact Or.inl (parts_subset d x hx y hy)
    · exact Or.inr (partsOfItems_subset ds x hx y hy)

theorem partsOfMembers_subset : (members : List (String × Document)) →
    ∀ x ∈ partsOfMembers members, ∀ y ∈ x.parts, y ∈ partsOfMembers members
  | [], x, hx, y, hy => by cases hx
  | (_, d) :: rest, x, hx, y, hy => by
    rw [partsOfMembers, List.mem_append] at hx ⊢
    rcases hx with hx | hx
    · exact Or.inl (parts_subset d x hx y hy)
    · exact Or.inr (partsOfMembers_subset rest x hx y hy)

end

/-! ## What is looked up -/

theorem mem_parts_of_item {items : List Document} {d : Document} (h : d ∈ items) :
    d ∈ (array items).parts :=
  List.mem_cons_of_mem _ (mem_partsOfItems h d.mem_parts_self)

theorem mem_parts_of_member {members : List (String × Document)} {m : String × Document}
    (h : m ∈ members) : m.2 ∈ (object members).parts :=
  List.mem_cons_of_mem _ (mem_partsOfMembers h m.2.mem_parts_self)

theorem mem_parts_of_get? {d x : Document} {key : String} (h : d.get? key = some x) :
    x ∈ d.parts := by
  cases d with
  | object members =>
    rw [get?, Option.map_eq_some_iff] at h
    obtain ⟨m, hm, rfl⟩ := h
    exact mem_parts_of_member (List.mem_of_find?_eq_some hm)
  | _ => cases h

theorem get?_of_array? {d : Document} {key : String} {items : List Document}
    (h : d.array? key = some items) : d.get? key = some (.array items) := by
  obtain ⟨x, hx, hitems⟩ := Option.bind_eq_some_iff.mp h
  cases x <;> cases hitems
  exact hx

theorem get?_of_object? {d : Document} {key : String} {members : List (String × Document)}
    (h : d.object? key = some members) : d.get? key = some (.object members) := by
  obtain ⟨x, hx, hmembers⟩ := Option.bind_eq_some_iff.mp h
  cases x <;> cases hmembers
  exact hx

theorem mem_parts_of_array? {d x : Document} {key : String} {items : List Document}
    (h : d.array? key = some items) (hx : x ∈ items) : x ∈ d.parts :=
  parts_subset d _ (mem_parts_of_get? (get?_of_array? h)) x (mem_parts_of_item hx)

theorem mem_parts_of_object? {d : Document} {key : String} {members : List (String × Document)}
    {m : String × Document} (h : d.object? key = some members) (hm : m ∈ members) :
    m.2 ∈ d.parts :=
  parts_subset d _ (mem_parts_of_get? (get?_of_object? h)) m.2 (mem_parts_of_member hm)

end Document

namespace Pointer

theorem mem_parts_of_step? {d x : Document} {key : String} (h : step? d key = some x) :
    x ∈ d.parts := by
  cases d with
  | object members => exact Document.mem_parts_of_get? (d := .object members) h
  | array items =>
    obtain ⟨i, -, hi⟩ := Option.bind_eq_some_iff.mp h
    exact Document.mem_parts_of_item (List.mem_of_getElem? hi)
  | _ => cases h

/-- What a pointer leads to is a part of the document. -/
theorem mem_parts_of_find? {d x : Document} {pointer : String} (h : find? d pointer = some x) :
    x ∈ d.parts := by
  unfold find? at h
  obtain ⟨segments, -, hfold⟩ := Option.bind_eq_some_iff.mp h
  clear h
  induction segments generalizing d with
  | nil =>
    cases hfold
    exact Document.mem_parts_self _
  | cons segment segments ih =>
    rw [List.foldlM_cons] at hfold
    obtain ⟨next, hnext, hrest⟩ := Option.bind_eq_some_iff.mp hfold
    obtain ⟨key, -, hstep⟩ := Option.bind_eq_some_iff.mp hnext
    exact Document.parts_subset d next (mem_parts_of_step? hstep) x (ih hrest)

end Pointer

end RecordDefinitions
