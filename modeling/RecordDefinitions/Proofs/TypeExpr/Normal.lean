import RecordDefinitions.Proofs.TypeExpr.Reading

/-!
# Types that are read

Whatever text is read, its type is readable: names are names, and a union holds several
types that differ and are no unions. Joining readable types, in whatever number and however
often they are repeated, gives such a type again, and names no more definitions than they do.
-/

namespace RecordDefinitions.TypeExpr

/-! ## Unions -/

section Unions

variable {types : List TypeExpr} {t member : TypeExpr} {n : String}

theorem memberReferences_eq_flatMap (members : List TypeExpr) :
    memberReferences members = members.flatMap references := by
  induction members with
  | nil => rfl
  | cons t members ih => rw [memberReferences, ih, List.flatMap_cons]

/-- The definitions that a type names are those that its alternatives name. -/
theorem references_eq_flatMap (t : TypeExpr) : t.references = t.alternatives.flatMap references := by
  cases t with
  | union members => exact memberReferences_eq_flatMap members
  | _ => exact (List.append_nil _).symm

theorem mem_distinct_alternatives :
    member ∈ distinct (types.flatMap alternatives) ↔ ∃ t ∈ types, member ∈ t.alternatives := by
  have hdistinct : member ∈ distinct (types.flatMap alternatives) ↔
      member ∈ types.flatMap alternatives :=
    Inference.mem_distinct
  rw [hdistinct, List.mem_flatMap]

/-- Dropping what is repeated loses no name that occurs once. -/
theorem flatMap_references_foldl_appendNew {seen : List TypeExpr}
    (h : ((seen ++ types).flatMap references).Nodup) :
    (types.foldl appendNew seen).flatMap references = (seen ++ types).flatMap references := by
  induction types generalizing seen with
  | nil => simp
  | cons t types ih =>
    rw [List.flatMap_append, List.flatMap_cons] at h
    have hshift : seen ++ t :: types = seen ++ [t] ++ types := by simp
    rw [List.foldl_cons]
    by_cases ht : t ∈ seen
    · -- Each of its names would occur twice, so that a repeated type has none.
      have hnone : t.references = [] := by
        rw [List.eq_nil_iff_forall_not_mem]
        intro n hn
        have hseen : n ∈ seen.flatMap references := List.mem_flatMap_of_mem ht hn
        exact (List.nodup_append.mp h).2.2 n hseen n (List.mem_append_left _ hn) rfl
      have hrest : (seen ++ t :: types).flatMap references =
          (seen ++ types).flatMap references := by
        simp [hnone]
      have hkept : appendNew seen t = seen := if_pos ht
      rw [hkept, hrest]
      apply ih
      rw [hnone, List.nil_append, ← List.flatMap_append] at h
      exact h
    · have hadded : appendNew seen t = seen ++ [t] := if_neg ht
      rw [hadded, hshift]
      apply ih
      rw [← hshift, List.flatMap_append, List.flatMap_cons]
      exact h

/-- A union of types that name no definition twice names what they name, in their order. -/
theorem references_unionOf_of_nodup (hsingle : ∀ t ∈ types, t.isUnion = false)
    (hnodup : (types.flatMap references).Nodup) :
    (unionOf types).references = types.flatMap references := by
  have hdistinct : (distinct types).flatMap references = types.flatMap references :=
    flatMap_references_foldl_appendNew hnodup
  rw [← hdistinct, unionOf, flatMap_alternatives hsingle]
  split
  next hnil => rw [hnil]; rfl
  next t hone => rw [hone]; simp
  next => rw [references, memberReferences_eq_flatMap]

theorem mem_references_unionOf :
    n ∈ (unionOf types).references ↔ ∃ t ∈ types, n ∈ t.references := by
  have hjoined : n ∈ (unionOf types).references ↔
      ∃ member ∈ distinct (types.flatMap alternatives), n ∈ member.references := by
    rcases unionOf_cases types with ⟨hnone, heq⟩ | ⟨t, hone, heq⟩ | ⟨_, heq⟩
    · simp [heq, hnone, references]
    · simp [heq, hone]
    · rw [heq, references, memberReferences_eq_flatMap, List.mem_flatMap]
  rw [hjoined]
  constructor
  · rintro ⟨member, hmember, hn⟩
    obtain ⟨t, ht, hmem⟩ := mem_distinct_alternatives.mp hmember
    refine ⟨t, ht, ?_⟩
    rw [references_eq_flatMap]
    exact List.mem_flatMap_of_mem hmem hn
  · rintro ⟨t, ht, hn⟩
    rw [references_eq_flatMap, List.mem_flatMap] at hn
    obtain ⟨member, hmem, hn⟩ := hn
    exact ⟨member, mem_distinct_alternatives.mpr ⟨t, ht, hmem⟩, hn⟩

/-- Readable types may be joined, unions and repetitions among them included. -/
theorem readable_unionOf_of_forall (h : ∀ t ∈ types, Readable t) : Readable (unionOf types) := by
  have hmembers : ∀ member ∈ distinct (types.flatMap alternatives),
      Readable member ∧ member.isUnion = false := by
    intro member hmember
    obtain ⟨t, ht, hmem⟩ := mem_distinct_alternatives.mp hmember
    exact (h t ht).of_mem_alternatives hmem
  have hnodup : (distinct (types.flatMap alternatives)).Nodup := Inference.nodup_distinct _
  rcases unionOf_cases types with ⟨_, heq⟩ | ⟨t, hone, heq⟩ | ⟨hseveral, heq⟩
  · rw [heq]
    exact .scalar .mixed
  · rw [heq]
    exact (hmembers t (hone ▸ List.mem_singleton.mpr rfl)).1
  · rw [heq]
    exact .union (fun member hm => (hmembers member hm).1) (fun member hm => (hmembers member hm).2)
      hnodup hseveral

end Unions

/-! ## The reader -/

theorem readable_of_readName? {part : List Char} {t : TypeExpr} (h : readName? part = some t) :
    Readable t ∧ t.isUnion = false := by
  unfold readName? at h
  split at h
  · cases h
    exact ⟨.scalar _, rfl⟩
  · split at h
    · obtain ⟨path, hpath, rfl⟩ := Option.map_eq_some_iff.mp h
      unfold externalPath? at hpath
      split at hpath
      · split_ifs at hpath with hidentifiers
        cases hpath
        refine ⟨.external ?_, rfl⟩
        rw [String.toList_ofList]
        exact hidentifiers
      · cases hpath
    · split_ifs at h with hname
      cases h
      refine ⟨.definition ?_, rfl⟩
      rw [String.toList_ofList]
      exact hname

/-- With some fuel, only readable types are read. -/
structure ReadsReadable (fuel : Nat) : Prop where
  text {text : List Char} {t : TypeExpr} {nullable : Bool} :
    readText fuel text = .ok (t, nullable) → Readable t
  member {whole part : List Char} {t : TypeExpr} :
    readMember fuel whole part = .ok t → Readable t ∧ t.isUnion = false
  element {whole text : List Char} {t : TypeExpr} :
    readElement fuel whole text = .ok t → Readable t

theorem readsReadable_zero : ReadsReadable 0 where
  text h := by simp [readText] at h
  member h := by simp [readMember] at h
  element h := by simp [readElement] at h

section Step

variable {fuel : Nat} (ih : ReadsReadable fuel)
include ih

theorem readable_of_readText_succ {text : List Char} {t : TypeExpr} {nullable : Bool}
    (h : readText (fuel + 1) text = .ok (t, nullable)) : Readable t := by
  rw [readText] at h
  dsimp only at h
  split_ifs at h
  · cases h
  · obtain ⟨members, hmembers, h⟩ := bind_eq_ok_iff.mp h
    have hreadable : ∀ member ∈ members, Readable member := by
      intro member hm
      obtain ⟨part, -, hpart⟩ := exists_of_forall₂_left (mapM_eq_ok_iff.mp hmembers).flip member hm
      exact (ih.member hpart).1
    split_ifs at h
    · cases h
      exact .scalar .mixed
    · cases h
      exact readable_unionOf_of_forall hreadable

theorem readable_of_readMember_succ {whole part : List Char} {t : TypeExpr}
    (h : readMember (fuel + 1) whole part = .ok t) : Readable t ∧ t.isUnion = false := by
  -- A member is written as an element with brackets or as a name, so that it is no union.
  have hlist {element : Except Fault TypeExpr} (helement : ∀ e, element = .ok e → Readable e)
      (hmap : element.map list = .ok t) : Readable t ∧ t.isUnion = false := by
    obtain ⟨e, he, rfl⟩ := map_eq_ok_iff.mp hmap
    exact ⟨.list (helement e he), rfl⟩
  rcases eq_or_ne part [] with rfl | hne
  · cases h
  rw [readMember_succ hne] at h
  unfold readCut at h
  split at h
  · exact hlist (fun e he => (ih.member he).1) h
  · cases h
    exact ⟨.map (.scalar .mixed), rfl⟩
  · exact hlist (fun e he => ih.element he) h
  · split_ifs at h
    · obtain ⟨e, he, rfl⟩ := map_eq_ok_iff.mp h
      exact ⟨.map (ih.element he), rfl⟩
    · exact hlist (fun e he => ih.element he) h
  · cases h
  · split at h
    next hname =>
      cases h
      exact readable_of_readName? hname
    next => cases h

theorem readable_of_readElement_succ {whole text : List Char} {t : TypeExpr}
    (h : readElement (fuel + 1) whole text = .ok t) : Readable t := by
  rw [readElement] at h
  obtain ⟨⟨type, nullable⟩, htype, h⟩ := bind_eq_ok_iff.mp h
  dsimp only at h
  split_ifs at h
  · cases h
  · cases h
    exact ih.text htype

end Step

theorem readsReadable (fuel : Nat) : ReadsReadable fuel := by
  induction fuel with
  | zero => exact readsReadable_zero
  | succ fuel ih =>
    exact ⟨readable_of_readText_succ ih, readable_of_readMember_succ ih,
      readable_of_readElement_succ ih⟩

/-- What is read, with or without null, is readable. -/
theorem readable_of_readNullable {text : String} {t : TypeExpr} {nullable : Bool}
    (h : readNullable text = .ok (t, nullable)) : Readable t :=
  (readsReadable _).text h

theorem readable_of_read {text : String} {t : TypeExpr} (h : read text = .ok t) : Readable t := by
  obtain ⟨⟨type, nullable⟩, htype, h⟩ := bind_eq_ok_iff.mp h
  dsimp only at h
  split_ifs at h
  · cases h
  · cases h
    exact readable_of_readNullable htype

end RecordDefinitions.TypeExpr
