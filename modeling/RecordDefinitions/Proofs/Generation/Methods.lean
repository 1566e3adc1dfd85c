import RecordDefinitions.Proofs.Generation.Identifiers

/-!
# Names of methods

A struct has a getter for each of its fields, named like the identifier of the field, and methods
whose names are made of an identifier or of the name of one element. Identifiers are unique, and
the beginnings keep the other kinds of methods apart. What is left to chance is that an identifier
is the name of a method of another kind, and that two collections have one name for an element.
-/

namespace RecordDefinitions.Structs

/-! ## Identifiers without their last underscore -/

/-- A word that has no underscore at its end, unless it is one behind a word of the language. -/
inductive IsGuarded : String → Prop
  | plain {word : String} : Text.Ends (fun c => c ≠ '_') word.toList → word ∉ reservedWords →
      IsGuarded word
  | reserved {word : String} : word ∈ reservedWords → IsGuarded (word ++ "_")

theorem withoutUnderscores_of_ends {word : String}
    (h : Text.Ends (fun c => c ≠ '_') word.toList) : withoutUnderscores word = word := by
  obtain ⟨start, c, hword, hc⟩ := h
  have hkept : (c :: start.reverse).dropWhile (· == '_') = c :: start.reverse :=
    List.dropWhile_cons_of_neg (by simp [hc])
  rw [withoutUnderscores, hword, List.reverse_append, List.reverse_singleton, List.singleton_append,
    hkept, List.reverse_cons, List.reverse_reverse, ← hword, String.ofList_toList]

theorem ends_of_mem_reservedWords {word : String} (h : word ∈ reservedWords) :
    Text.Ends (fun c => c ≠ '_') word.toList := by
  have hletters : ∀ word ∈ reservedWords, word.toList.getLast?.any (· != '_') := by decide
  have hlast := hletters word h
  cases hsome : word.toList.getLast? with
  | none =>
    rw [hsome] at hlast
    cases hlast
  | some c =>
    rw [hsome] at hlast
    obtain ⟨start, hword⟩ := List.getLast?_eq_some_iff.mp hsome
    exact ⟨start, c, hword, by simpa using hlast⟩

theorem withoutUnderscores_append {word : String}
    (h : Text.Ends (fun c => c ≠ '_') word.toList) : withoutUnderscores (word ++ "_") = word := by
  have hsame : withoutUnderscores (word ++ "_") = withoutUnderscores word := by
    have hlast : "_".toList = ['_'] := rfl
    rw [withoutUnderscores, String.toList_append, hlast, List.reverse_append,
      List.reverse_singleton, List.singleton_append, List.dropWhile_cons_of_pos (by rfl)]
    rfl
  rw [hsame, withoutUnderscores_of_ends h]

/-- The underscore at the end is there only behind a word that is no identifier itself. -/
theorem IsGuarded.eq_of_withoutUnderscores {word other : String} (h : IsGuarded word)
    (h' : IsGuarded other) (hsame : withoutUnderscores word = withoutUnderscores other) :
    word = other := by
  cases h with
  | plain hends hword =>
    rw [withoutUnderscores_of_ends hends] at hsame
    cases h' with
    | plain hends' _ => rw [hsame, withoutUnderscores_of_ends hends']
    | reserved hother =>
      rw [withoutUnderscores_append (ends_of_mem_reservedWords hother)] at hsame
      exact absurd (hsame ▸ hother) hword
  | reserved hword =>
    rw [withoutUnderscores_append (ends_of_mem_reservedWords hword)] at hsame
    cases h' with
    | plain hends' hother =>
      rw [withoutUnderscores_of_ends hends'] at hsame
      exact absurd (hsame ▸ hword) hother
    | reserved hother =>
      rw [withoutUnderscores_append (ends_of_mem_reservedWords hother)] at hsame
      rw [hsame]

theorem isGuarded_identifierFor (name : String) : IsGuarded (identifierFor name) := by
  obtain ⟨word, -, hends, hname⟩ := exists_identifierFor_eq name
  rw [hname]
  split
  next hreserved => exact .reserved hreserved
  next hfree =>
    refine .plain (hends.imp ?_) hfree
    rintro c hc rfl
    rcases hc with hc | hc <;> cases hc

theorem IsGuarded.uniqueName {base : String} (h : IsGuarded base) (used : List String) :
    IsGuarded (Naming.uniqueName used base) := by
  rcases Naming.uniqueName_eq_or used base with hbase | ⟨n, hnumbered⟩
  · rwa [hbase]
  · have hdigits : Text.Ends (fun c => c.isDigit) (Naming.numbered base n).toList := by
      rw [Naming.numbered, Decimal.text, String.toList_append, String.toList_ofList]
      exact (Text.ends_of_forall (Decimal.digits_ne_nil n)
        fun c hc => Decimal.isDigit_of_mem_digits hc).append _
    rw [hnumbered]
    refine .plain (hdigits.imp ?_) (not_mem_reservedWords (hdigits.imp fun c => Or.inr))
    rintro c hc rfl
    cases hc

/-! ## Names by the kinds of methods -/

/-- What the methods that put a value in place are named after. -/
def Member.stem (m : Member) : String := withoutUnderscores m.identifier

/-- What the setters are named after. -/
def setterStems (immutable : Bool) (members : List Member) : List String :=
  if immutable then [] else members.map Member.stem

/-- What the methods for one element are named after. -/
def elementStems (immutable : Bool) (members : List Member) : List String :=
  if immutable then []
  else (members.filter fun m => m.view.holding ≠ .single).map Member.itemName

/-- The names of all methods but the getters. -/
def derivedNames (immutable : Bool) (members : List Member) : List String :=
  (setterStems immutable members).map ("set_" ++ ·) ++
    ((members.map Member.stem).map ("with_" ++ ·) ++
      ((elementStems immutable members).map ("add_" ++ ·) ++
        (elementStems immutable members).map ("remove_" ++ ·)))

theorem names_methods (immutable : Bool) (m : Member) :
    (m.methods immutable).map (·.name) = m.identifier :: derivedNames immutable [m] := by
  cases immutable with
  | true => rfl
  | false => cases hholding : m.view.holding <;>
    simp [Member.methods, derivedNames, setterStems, elementStems, hholding, Member.getter,
      Member.setter, Member.wither, Member.adder, Member.remover, Member.stem]

theorem setterStems_cons (immutable : Bool) (m : Member) (members : List Member) :
    setterStems immutable (m :: members) =
      setterStems immutable [m] ++ setterStems immutable members := by
  cases immutable <;> rfl

theorem elementStems_cons (immutable : Bool) (m : Member) (members : List Member) :
    elementStems immutable (m :: members) =
      elementStems immutable [m] ++ elementStems immutable members := by
  cases immutable with
  | true => rfl
  | false =>
    have hfilter : (m :: members).filter (fun m => decide (m.view.holding ≠ .single)) =
        [m].filter (fun m => decide (m.view.holding ≠ .single)) ++
          members.filter (fun m => decide (m.view.holding ≠ .single)) :=
      List.filter_append [m] members
    rw [elementStems, hfilter, List.map_append]
    rfl

theorem derivedNames_cons_perm (immutable : Bool) (m : Member) (members : List Member) :
    (derivedNames immutable (m :: members)).Perm
      (derivedNames immutable [m] ++ derivedNames immutable members) := by
  rw [List.perm_iff_count]
  intro name
  simp only [derivedNames, setterStems_cons immutable m members,
    elementStems_cons immutable m members, List.map_cons, List.map_append, List.map_nil,
    List.count_append, List.count_cons, List.count_nil]
  omega

/-- The names of all methods, kind by kind. -/
theorem methodNames_perm (immutable : Bool) (members : List Member) :
    ((members.flatMap (Member.methods immutable)).map (·.name)).Perm
      (members.map (·.identifier) ++ derivedNames immutable members) := by
  induction members with
  | nil => cases immutable <;> exact .refl []
  | cons m members ih =>
    have hshift : (derivedNames immutable [m] ++
        (members.map (·.identifier) ++ derivedNames immutable members)).Perm
        (members.map (·.identifier) ++ derivedNames immutable (m :: members)) := by
      rw [← List.append_assoc]
      refine (List.perm_append_comm.append_right _).trans ?_
      rw [List.append_assoc]
      exact (derivedNames_cons_perm immutable m members).symm.append_left _
    rw [List.flatMap_cons, List.map_append, names_methods, List.map_cons, List.cons_append,
      List.cons_append]
    exact ((ih.append_left _).trans hshift).cons _

/-! ## Names that are different -/

theorem append_left_injective (beginning : String) :
    Function.Injective fun stem => beginning ++ stem := by
  intro a b h
  have hchars := congrArg String.toList h
  simp only [String.toList_append] at hchars
  exact String.toList_inj.mp (List.append_cancel_left hchars)

/-- Two names of different kinds of methods are different, as they start with different letters. -/
theorem append_ne_append {first second : String}
    (h : first.toList.head?.any fun c => second.toList.head?.any (c != ·)) (stem other : String) :
    first ++ stem ≠ second ++ other := by
  intro hsame
  have hchars := congrArg (·.toList.head?) hsame
  simp only [String.toList_append, List.head?_append] at hchars
  cases hfirst : first.toList.head? with
  | none => simp [hfirst] at h
  | some c =>
    cases hsecond : second.toList.head? with
    | none => simp [hfirst, hsecond] at h
    | some d => simp_all

theorem forall_ne_of_mem_map {first second : String}
    (h : first.toList.head?.any fun c => second.toList.head?.any (c != ·))
    (stems others : List String) :
    ∀ a ∈ stems.map (first ++ ·), ∀ b ∈ others.map (second ++ ·), a ≠ b := by
  intro a ha b hb
  obtain ⟨stem, -, rfl⟩ := List.mem_map.mp ha
  obtain ⟨other, -, rfl⟩ := List.mem_map.mp hb
  exact append_ne_append h stem other

theorem nodup_map_append_iff (beginning : String) {stems : List String} :
    (stems.map (beginning ++ ·)).Nodup ↔ stems.Nodup :=
  List.nodup_map_iff (append_left_injective beginning)

/-- Beside the getters only two methods for one element may have the same name. -/
theorem nodup_derivedNames_iff {immutable : Bool} {members : List Member}
    (h : (members.map Member.stem).Nodup) :
    (derivedNames immutable members).Nodup ↔ (elementStems immutable members).Nodup := by
  have hsetters : (setterStems immutable members).Nodup := by
    cases immutable with
    | true => exact List.nodup_nil
    | false => exact h
  have helements : ((elementStems immutable members).map ("add_" ++ ·) ++
      (elementStems immutable members).map ("remove_" ++ ·)).Nodup ↔
        (elementStems immutable members).Nodup := by
    rw [List.nodup_append, nodup_map_append_iff, nodup_map_append_iff, ← and_assoc, and_self]
    exact and_iff_left (forall_ne_of_mem_map (by decide) _ _)
  rw [derivedNames, List.nodup_append, List.nodup_append, helements, nodup_map_append_iff,
    nodup_map_append_iff]
  constructor
  · exact fun hall => hall.2.1.2.1
  · intro hall
    refine ⟨hsetters, ⟨h, hall, fun a ha => ?_⟩, fun a ha => ?_⟩
    · rw [List.forall_mem_append]
      exact ⟨forall_ne_of_mem_map (by decide) _ _ a ha, forall_ne_of_mem_map (by decide) _ _ a ha⟩
    · rw [List.forall_mem_append, List.forall_mem_append]
      exact ⟨forall_ne_of_mem_map (by decide) _ _ a ha, forall_ne_of_mem_map (by decide) _ _ a ha,
        forall_ne_of_mem_map (by decide) _ _ a ha⟩

/-! ## Names of the methods of a struct -/

theorem Member.isGuarded_of_mem_ofFields {names : Generation.TypeNames} {used : List String}
    {fs : List FieldView} {m : Member} (h : m ∈ ofFields names used fs) :
    IsGuarded m.identifier := by
  obtain ⟨name, taken, hname⟩ := exists_identifier_eq h
  rw [hname]
  exact (isGuarded_identifierFor name).uniqueName taken

/-- Identifiers are different also without the underscores at their ends. -/
theorem Member.nodup_stems_ofFields (names : Generation.TypeNames) (used : List String)
    (fs : List FieldView) : ((ofFields names used fs).map stem).Nodup := by
  have hidentifiers := (identifiers_fresh names used fs).1
  refine List.Nodup.map_on ?_ (List.Nodup.of_map _ hidentifiers)
  intro m hm other hother hsame
  refine List.inj_on_of_nodup_map hidentifiers hm hother ?_
  exact (isGuarded_of_mem_ofFields hm).eq_of_withoutUnderscores
    (isGuarded_of_mem_ofFields hother) hsame

/-- Methods have different names if and only if no identifier is the name of a method that is no
getter, and no two collections of a mutable definition have the same name for an element. -/
theorem nodup_names_iff (names : Generation.TypeNames) (immutable : Bool) (fs : List FieldView) :
    (((Member.ofFields names [] fs).flatMap (Member.methods immutable)).map (·.name)).Nodup ↔
      (∀ m ∈ Member.ofFields names [] fs,
          m.identifier ∉ derivedNames immutable (Member.ofFields names [] fs)) ∧
        (elementStems immutable (Member.ofFields names [] fs)).Nodup := by
  have hidentifiers := (Member.identifiers_fresh names [] fs).1
  rw [(methodNames_perm immutable _).nodup_iff, List.nodup_append,
    nodup_derivedNames_iff (Member.nodup_stems_ofFields names [] fs)]
  constructor
  · rintro ⟨-, helements, hapart⟩
    exact ⟨fun m hm hderived => hapart _ (List.mem_map_of_mem hm) _ hderived rfl, helements⟩
  · rintro ⟨hapart, helements⟩
    refine ⟨hidentifiers, helements, fun a ha b hb hsame => ?_⟩
    obtain ⟨m, hm, rfl⟩ := List.mem_map.mp ha
    exact hapart m hm (hsame ▸ hb)

end RecordDefinitions.Structs
