/-!
# Catalogues

A catalogue is a list of named items in which no name occurs twice. Its order
is the order in which the names first came: entering an item under a name that
is already present replaces the old item where it stands. Definitions, fields
and the members of a data object are all kept this way, so every output lists
them in declaration order.

The lemmas below say what each operation does to the list of names and to a
lookup; nothing outside this module unfolds `enter`.
-/

namespace RecordDefinitions

/-- Things that go by a name. -/
class Named (α : Type) where
  nameOf : α → String

export Named (nameOf)

/-- A pair goes by its first component. -/
instance (α : Type) : Named (String × α) := ⟨Prod.fst⟩

@[simp] theorem nameOf_pair {α : Type} (p : String × α) : nameOf p = p.1 := rfl

section Lists

variable {α β : Type} [Named α] [Named β]

/-- The names of a list of items, in order. -/
def namesOf (items : List α) : List String := items.map nameOf

/-- Put an item where its name stands, or at the end when the name is new. -/
def enter (item : α) : List α → List α
  | [] => [item]
  | x :: xs => if nameOf x = nameOf item then item :: xs else x :: enter item xs

/-- The first item of that name. -/
def findNamed? (name : String) (items : List α) : Option α :=
  items.find? fun x => nameOf x == name

theorem namesOf_enter (item : α) (items : List α) :
    namesOf (enter item items) =
      if nameOf item ∈ namesOf items then namesOf items
      else namesOf items ++ [nameOf item] := by
  induction items with
  | nil => simp [enter, namesOf]
  | cons x xs ih =>
    by_cases h : nameOf x = nameOf item
    · simp [enter, namesOf, h]
    · have h' : ¬ nameOf item = nameOf x := fun e => h e.symm
      have e : namesOf (enter item (x :: xs)) = nameOf x :: namesOf (enter item xs) := by
        simp [enter, namesOf, h]
      have m : nameOf item ∈ namesOf (x :: xs) ↔ nameOf item ∈ namesOf xs := by
        simp [namesOf, h']
      rw [e, ih, show namesOf (x :: xs) = nameOf x :: namesOf xs from rfl] at *
      by_cases g : nameOf item ∈ namesOf xs
      · rw [if_pos g, if_pos (m.2 g)]
      · rw [if_neg g, if_neg (fun k => g (m.1 k)), List.cons_append]

theorem nodup_namesOf_enter (item : α) {items : List α} (h : (namesOf items).Nodup) :
    (namesOf (enter item items)).Nodup := by
  rw [namesOf_enter]
  split
  · exact h
  · rename_i fresh
    exact List.nodup_append.2 ⟨h, by simp, by
      intro a ha b hb e
      rw [List.mem_singleton.1 hb] at e
      exact fresh (e ▸ ha)⟩

theorem findNamed?_enter (name : String) (item : α) (items : List α) :
    findNamed? name (enter item items) =
      if nameOf item = name then some item else findNamed? name items := by
  induction items with
  | nil => by_cases h : nameOf item = name <;> simp [enter, findNamed?, h]
  | cons x xs ih =>
    by_cases h : nameOf x = nameOf item
    · by_cases e : nameOf item = name <;> simp_all [enter, findNamed?]
    · by_cases e : nameOf item = name
      · subst e
        simp_all [enter, findNamed?]
      · by_cases g : nameOf x = name <;> simp_all [enter, findNamed?]

theorem mem_of_mem_enter {item x : α} {items : List α} (h : x ∈ enter item items) :
    x = item ∨ x ∈ items := by
  induction items with
  | nil => exact Or.inl (List.mem_singleton.mp h)
  | cons y ys ih =>
    rw [enter] at h
    split at h
    · rcases List.mem_cons.mp h with h | h
      · exact Or.inl h
      · exact Or.inr (List.mem_cons_of_mem y h)
    · rcases List.mem_cons.mp h with rfl | h
      · exact Or.inr List.mem_cons_self
      · rcases ih h with h | h
        · exact Or.inl h
        · exact Or.inr (List.mem_cons_of_mem y h)

/-- Entering an item whose name is new appends it. -/
theorem enter_of_not_mem {item : α} {items : List α} (h : nameOf item ∉ namesOf items) :
    enter item items = items ++ [item] := by
  induction items with
  | nil => rfl
  | cons x xs ih =>
    simp only [namesOf, List.map_cons, List.mem_cons, not_or] at h
    have hx : ¬ nameOf x = nameOf item := fun e => h.1 e.symm
    simp [enter, hx, ih (by simpa [namesOf] using h.2)]

/-- Entering an item whose name stands in a list replaces the item there. -/
theorem enter_of_middle {item x : α} {before after : List α} (hx : nameOf x = nameOf item)
    (hbefore : nameOf item ∉ namesOf before) :
    enter item (before ++ x :: after) = before ++ item :: after := by
  induction before with
  | nil => simp [enter, hx]
  | cons y ys ih =>
    simp only [namesOf, List.map_cons, List.mem_cons, not_or] at hbefore
    have hy : ¬ nameOf y = nameOf item := fun e => hbefore.1 e.symm
    simp [enter, hy, ih (by simpa [namesOf] using hbefore.2)]

/-- Where no name occurs twice, looking up a name and being an item of that name
are the same. -/
theorem findNamed?_eq_some_iff {name : String} {a : α} {items : List α}
    (h : (namesOf items).Nodup) :
    findNamed? name items = some a ↔ a ∈ items ∧ nameOf a = name := by
  induction items with
  | nil => simp [findNamed?]
  | cons x xs ih =>
    simp only [namesOf, List.map_cons, List.nodup_cons] at h
    by_cases hx : nameOf x = name
    · have hfirst : findNamed? name (x :: xs) = some x := by simp [findNamed?, hx]
      rw [hfirst, Option.some.injEq]
      constructor
      · rintro rfl
        exact ⟨List.mem_cons_self, hx⟩
      · rintro ⟨hm, hn⟩
        rcases List.mem_cons.mp hm with rfl | hm
        · rfl
        · exact absurd (List.mem_map.mpr ⟨a, hm, hn.trans hx.symm⟩) h.1
    · have hrest : findNamed? name (x :: xs) = findNamed? name xs := by
        simp [findNamed?, hx]
      rw [hrest, ih h.2, List.mem_cons]
      constructor
      · rintro ⟨hm, hn⟩
        exact ⟨Or.inr hm, hn⟩
      · rintro ⟨rfl | hm, hn⟩
        · exact absurd hn hx
        · exact ⟨hm, hn⟩

theorem isSome_findNamed?_iff {name : String} {items : List α} :
    (findNamed? name items).isSome ↔ name ∈ namesOf items := by
  simp [findNamed?, namesOf]

end Lists

/-- A list of items in which no name occurs twice. -/
structure Catalogue (α : Type) [Named α] where
  toList : List α
  nodup : (namesOf toList).Nodup

namespace Catalogue

variable {α β : Type} [Named α] [Named β]

theorem ext_toList {c d : Catalogue α} (h : c.toList = d.toList) : c = d := by
  cases c; cases d; cases h; rfl

instance [DecidableEq α] : DecidableEq (Catalogue α) := fun c d =>
  if h : c.toList = d.toList then isTrue (ext_toList h)
  else isFalse fun e => h (congrArg toList e)

/-- The catalogue without items. -/
def empty : Catalogue α := ⟨[], List.nodup_nil⟩

instance : Inhabited (Catalogue α) := ⟨empty⟩

/-- The names, in order of first entry. -/
def names (c : Catalogue α) : List String := namesOf c.toList

/-- The item of that name, if there is one. -/
def find? (c : Catalogue α) (name : String) : Option α := findNamed? name c.toList

/-- Whether an item of that name is present. -/
def contains (c : Catalogue α) (name : String) : Bool := (c.find? name).isSome

/-- Enter an item, replacing the one of the same name where it stands. -/
def insert (c : Catalogue α) (item : α) : Catalogue α :=
  ⟨enter item c.toList, nodup_namesOf_enter item c.nodup⟩

/-- Enter the items one after the other; the last item of a name wins. -/
def ofList (items : List α) : Catalogue α := items.foldl insert empty

/-- The number of items. -/
def size (c : Catalogue α) : Nat := c.toList.length

/-- Change every item and keep every name. -/
def map (f : α → β) (keeps : ∀ a, nameOf (f a) = nameOf a) (c : Catalogue α) : Catalogue β :=
  ⟨c.toList.map f, by
    have e : namesOf (c.toList.map f) = namesOf c.toList := by
      simp [namesOf, List.map_map, Function.comp_def, keeps]
    rw [e]
    exact c.nodup⟩

@[simp] theorem toList_empty : (empty : Catalogue α).toList = [] := rfl

@[simp] theorem find?_empty (name : String) : (empty : Catalogue α).find? name = none := rfl

@[simp] theorem toList_map (f : α → β) (keeps : ∀ a, nameOf (f a) = nameOf a)
    (c : Catalogue α) : (c.map f keeps).toList = c.toList.map f := rfl

theorem find?_eq_some_iff {c : Catalogue α} {name : String} {a : α} :
    c.find? name = some a ↔ a ∈ c.toList ∧ nameOf a = name :=
  findNamed?_eq_some_iff c.nodup

theorem find?_of_mem {c : Catalogue α} {a : α} (h : a ∈ c.toList) : c.find? (nameOf a) = some a :=
  find?_eq_some_iff.mpr ⟨h, rfl⟩

theorem contains_iff {c : Catalogue α} {name : String} :
    c.contains name ↔ name ∈ c.names :=
  isSome_findNamed?_iff

theorem contains_of_find? {c : Catalogue α} {name : String} {a : α}
    (h : c.find? name = some a) : c.contains name := by
  simp [contains, h]

theorem names_insert (c : Catalogue α) (item : α) :
    (c.insert item).names =
      if nameOf item ∈ c.names then c.names else c.names ++ [nameOf item] :=
  namesOf_enter item c.toList

theorem find?_insert (c : Catalogue α) (item : α) (name : String) :
    (c.insert item).find? name = if nameOf item = name then some item else c.find? name :=
  findNamed?_enter name item c.toList

theorem names_map (f : α → β) (keeps : ∀ a, nameOf (f a) = nameOf a) (c : Catalogue α) :
    (c.map f keeps).names = c.names := by
  simp [names, namesOf, List.map_map, Function.comp_def, keeps]

theorem find?_map (f : α → β) (keeps : ∀ a, nameOf (f a) = nameOf a) (c : Catalogue α)
    (name : String) : (c.map f keeps).find? name = (c.find? name).map f := by
  have hsame : (fun b => nameOf b == name) ∘ f = fun a => nameOf a == name := by
    funext a
    rw [Function.comp_apply, keeps]
  rw [find?, findNamed?, toList_map, List.find?_map, hsame]
  rfl

theorem mem_of_mem_insert {c : Catalogue α} {item x : α} (h : x ∈ (c.insert item).toList) :
    x = item ∨ x ∈ c.toList :=
  mem_of_mem_enter h

theorem toList_insert_of_not_mem {c : Catalogue α} {item : α} (h : nameOf item ∉ c.names) :
    (c.insert item).toList = c.toList ++ [item] :=
  enter_of_not_mem h

theorem toList_insert_of_middle {c : Catalogue α} {item x : α} {before after : List α}
    (h : c.toList = before ++ x :: after) (hx : nameOf x = nameOf item) :
    (c.insert item).toList = before ++ item :: after := by
  have hnodup := c.nodup
  rw [h, namesOf, List.map_append, List.nodup_append] at hnodup
  have hbefore : nameOf item ∉ namesOf before := fun hm =>
    hnodup.2.2 _ hm _ List.mem_cons_self hx.symm
  exact (congrArg (enter item) h).trans (enter_of_middle hx hbefore)

theorem toList_foldl_insert {items : List α} {c : Catalogue α}
    (h : (c.names ++ namesOf items).Nodup) :
    (items.foldl insert c).toList = c.toList ++ items := by
  induction items generalizing c with
  | nil => simp
  | cons x xs ih =>
    have hx : nameOf x ∉ c.names := by
      intro m
      have := List.nodup_append.1 h
      exact this.2.2 _ m _ (by simp [namesOf]) rfl
    have e := toList_insert_of_not_mem hx
    have n : (c.insert x).names = c.names ++ [nameOf x] := by
      rw [names_insert, if_neg hx]
    rw [List.foldl_cons, ih (by simpa [n, namesOf] using h), e]
    simp

/-- Of the items of a name, the last one that was entered is found. -/
theorem find?_foldl_insert (items : List α) (c : Catalogue α) (name : String) :
    (items.foldl insert c).find? name = (findNamed? name items.reverse).or (c.find? name) := by
  induction items generalizing c with
  | nil => rfl
  | cons item items ih =>
    rw [List.foldl_cons, ih, find?_insert, List.reverse_cons]
    simp only [findNamed?, List.find?_append, Option.or_assoc]
    by_cases hname : nameOf item = name <;> simp [hname]

/-- A list without repeated names is its own catalogue. -/
theorem toList_ofList {items : List α} (h : (namesOf items).Nodup) :
    (ofList items).toList = items := by
  have e : (items.foldl insert empty).toList = (empty : Catalogue α).toList ++ items :=
    toList_foldl_insert (by simpa [names, namesOf] using h)
  simpa [ofList] using e

theorem map_some_toList (c : Catalogue α) : c.toList.map some = c.names.map c.find? := by
  rw [names, namesOf, List.map_map]
  exact List.map_congr_left fun a ha => (find?_of_mem ha).symm

/-- The items are what is found under the names, in their order. -/
theorem toList_eq_filterMap (c : Catalogue α) : c.toList = c.names.filterMap c.find? := by
  calc
    c.toList = (c.toList.map some).filterMap id := by
      rw [List.filterMap_map, Function.id_comp, List.filterMap_some]
    _ = c.names.filterMap c.find? := by
      rw [map_some_toList, List.filterMap_map, Function.id_comp]

/-- A catalogue is its names and what is found under each. -/
theorem ext_find? {c d : Catalogue α} (hnames : c.names = d.names)
    (hfind : ∀ name, c.find? name = d.find? name) : c = d := by
  have hsome : c.toList.map some = d.toList.map some := by
    rw [map_some_toList, map_some_toList, hnames, funext hfind]
  exact ext_toList ((List.map_inj_right fun _ _ => Option.some.inj).mp hsome)

theorem ofList_toList (c : Catalogue α) : ofList c.toList = c :=
  ext_toList (toList_ofList c.nodup)

end Catalogue

end RecordDefinitions
