import Mathlib.Data.List.Induction
import Mathlib.Data.List.Nodup
import RecordDefinitions.Inference.Summary

/-!
# Lists without repetitions

What is left of a list when every item is kept only where it first comes, and what this
means for unions of types.
-/

namespace RecordDefinitions

namespace Inference

variable {α : Type} [DecidableEq α]

theorem appendNew_of_mem {seen : List α} {a : α} (h : a ∈ seen) : appendNew seen a = seen :=
  if_pos h

theorem appendNew_of_not_mem {seen : List α} {a : α} (h : a ∉ seen) :
    appendNew seen a = seen ++ [a] :=
  if_neg h

theorem mem_appendNew {seen : List α} {a b : α} : b ∈ appendNew seen a ↔ b ∈ seen ∨ b = a := by
  by_cases h : a ∈ seen
  · rw [appendNew_of_mem h]
    constructor
    · exact Or.inl
    · rintro (hb | rfl)
      · exact hb
      · exact h
  · rw [appendNew_of_not_mem h]
    simp

theorem nodup_appendNew {seen : List α} (a : α) (h : seen.Nodup) : (appendNew seen a).Nodup := by
  by_cases ha : a ∈ seen
  · rwa [appendNew_of_mem ha]
  · rw [appendNew_of_not_mem ha, ← List.concat_eq_append]
    exact h.concat ha

theorem mem_foldl_appendNew {as seen : List α} {b : α} :
    b ∈ as.foldl appendNew seen ↔ b ∈ seen ∨ b ∈ as := by
  induction as generalizing seen with
  | nil => simp
  | cons a as ih => rw [List.foldl_cons, ih, mem_appendNew, List.mem_cons, or_assoc]

theorem nodup_foldl_appendNew {as seen : List α} (h : seen.Nodup) :
    (as.foldl appendNew seen).Nodup := by
  induction as generalizing seen with
  | nil => exact h
  | cons a as ih => exact ih (nodup_appendNew a h)

theorem foldl_appendNew_of_nodup {as seen : List α} (h : (seen ++ as).Nodup) :
    as.foldl appendNew seen = seen ++ as := by
  induction as generalizing seen with
  | nil => exact (List.append_nil seen).symm
  | cons a as ih =>
    have ha : a ∉ seen := fun hm => (List.nodup_append.mp h).2.2 a hm a List.mem_cons_self rfl
    have hshift : seen ++ [a] ++ as = seen ++ a :: as := by simp
    rw [List.foldl_cons, appendNew_of_not_mem ha, ih (by rwa [hshift]), hshift]

@[simp] theorem mem_distinct {as : List α} {a : α} : a ∈ distinct as ↔ a ∈ as := by
  simp [distinct, mem_foldl_appendNew]

theorem nodup_distinct (as : List α) : (distinct as).Nodup := nodup_foldl_appendNew List.nodup_nil

theorem eraseDups_of_nodup {as : List α} (h : as.Nodup) : as.eraseDups = as := by
  induction as with
  | nil => rfl
  | cons a as ih =>
    obtain ⟨ha, hnodup⟩ := List.nodup_cons.mp h
    have hothers : as.filter (fun b => !b == a) = as := by
      rw [List.filter_eq_self]
      intro b hb
      have hne : b ≠ a := fun hsame => ha (hsame ▸ hb)
      simp [hne]
    rw [List.eraseDups_cons, hothers, ih hnodup]

/-- Appending what is new keeps of all items the first ones. -/
theorem foldl_appendNew_eq_eraseDups {as seen : List α} (h : seen.Nodup) :
    as.foldl appendNew seen = (seen ++ as).eraseDups := by
  induction as generalizing seen with
  | nil => rw [List.append_nil, eraseDups_of_nodup h, List.foldl_nil]
  | cons a as ih =>
    rw [List.foldl_cons, ih (nodup_appendNew a h)]
    by_cases ha : a ∈ seen
    · rw [appendNew_of_mem ha, List.eraseDups_append, List.eraseDups_append]
      simp [List.removeAll, ha]
    · rw [appendNew_of_not_mem ha, List.append_assoc, List.singleton_append]

theorem distinct_of_nodup {as : List α} (h : as.Nodup) : distinct as = as :=
  foldl_appendNew_of_nodup h

/-- What comes again at the end of a list is not kept. -/
theorem foldl_appendNew_of_subset {as seen : List α} (h : as ⊆ seen) :
    as.foldl appendNew seen = seen := by
  induction as with
  | nil => rfl
  | cons a as ih =>
    obtain ⟨ha, has⟩ := List.cons_subset.mp h
    rw [List.foldl_cons, appendNew_of_mem ha, ih has]

theorem distinct_append_of_subset {as more : List α} (h : more ⊆ as) :
    distinct (as ++ more) = distinct as := by
  rw [distinct, List.foldl_append]
  exact foldl_appendNew_of_subset fun a ha => mem_distinct.mpr (h ha)

theorem distinct_concat (as : List α) (a : α) :
    distinct (as ++ [a]) = appendNew (distinct as) a :=
  List.foldl_append

/-- Repetitions among the items that are appended make no difference. -/
theorem foldl_appendNew_distinct (as seen : List α) :
    (distinct as).foldl appendNew seen = as.foldl appendNew seen := by
  induction as using List.reverseRecOn with
  | nil => rfl
  | append_singleton as a ih =>
    rw [List.foldl_append, List.foldl_cons, List.foldl_nil, distinct_concat]
    by_cases ha : a ∈ as
    · have hknown : a ∈ as.foldl appendNew seen := mem_foldl_appendNew.mpr (Or.inr ha)
      rw [appendNew_of_mem (mem_distinct.mpr ha), appendNew_of_mem hknown, ih]
    · rw [appendNew_of_not_mem (fun hm => ha (mem_distinct.mp hm)), List.foldl_append, ih]
      rfl

/-- Dropping repetitions list by list, and then once more, is dropping them in all lists together. -/
theorem distinct_flatMap_distinct {β : Type} (f : β → List α) (bs : List β) :
    distinct (bs.flatMap fun b => distinct (f b)) = distinct (bs.flatMap f) := by
  suffices h : ∀ seen : List α, (bs.flatMap fun b => distinct (f b)).foldl appendNew seen =
      (bs.flatMap f).foldl appendNew seen from h []
  induction bs with
  | nil => intro seen; rfl
  | cons b bs ih =>
    intro seen
    rw [List.flatMap_cons, List.flatMap_cons, List.foldl_append, List.foldl_append, ih,
      foldl_appendNew_distinct]

theorem distinct_perm {as bs : List α} (h : as.Perm bs) : (distinct as).Perm (distinct bs) := by
  rw [List.perm_ext_iff_of_nodup (nodup_distinct as) (nodup_distinct bs)]
  intro a
  rw [mem_distinct, mem_distinct, h.mem_iff]

/-- The items of a list, each once and in the order in which they first come. -/
structure FirstOccurrences (as firsts : List α) : Prop where
  nodup : firsts.Nodup
  mem_iff : ∀ a, a ∈ firsts ↔ a ∈ as
  order : firsts.Pairwise fun a b => as.idxOf a < as.idxOf b

theorem firstOccurrences_distinct (as : List α) : FirstOccurrences as (distinct as) where
  nodup := nodup_distinct as
  mem_iff _ := mem_distinct
  order := by
    induction as using List.reverseRecOn with
    | nil => exact List.Pairwise.nil
    | append_singleton as a ih =>
      have hbefore : (distinct as).Pairwise fun b c => (as ++ [a]).idxOf b < (as ++ [a]).idxOf c := by
        refine ih.imp_of_mem ?_
        intro b c hb hc hlt
        rwa [List.idxOf_append_of_mem (mem_distinct.mp hb),
          List.idxOf_append_of_mem (mem_distinct.mp hc)]
      rw [distinct_concat]
      by_cases ha : a ∈ as
      · rwa [appendNew_of_mem (mem_distinct.mpr ha)]
      · rw [appendNew_of_not_mem (fun hm => ha (mem_distinct.mp hm)), List.pairwise_append]
        refine ⟨hbefore, List.pairwise_singleton _ _, ?_⟩
        intro b hb c hc
        have hb := mem_distinct.mp hb
        rw [List.mem_singleton.mp hc, List.idxOf_append_of_mem hb, List.idxOf_append_of_notMem ha]
        exact Nat.lt_of_lt_of_le (List.idxOf_lt_length_of_mem hb) (Nat.le_add_right _ _)

end Inference

namespace TypeExpr

theorem alternatives_of_single {t : TypeExpr} (h : t.isUnion = false) : t.alternatives = [t] := by
  cases t with
  | union _ => cases h
  | _ => rfl

theorem mem_alternatives_of_single {t member : TypeExpr} (h : t.isUnion = false) :
    member ∈ t.alternatives ↔ member = t := by
  rw [alternatives_of_single h, List.mem_singleton]

theorem flatMap_alternatives {types : List TypeExpr} (h : ∀ t ∈ types, t.isUnion = false) :
    types.flatMap alternatives = types := by
  induction types with
  | nil => rfl
  | cons t types ih =>
    obtain ⟨ht, hrest⟩ := List.forall_mem_cons.mp h
    rw [List.flatMap_cons, alternatives_of_single ht, ih hrest]
    rfl

/-- A union of types stands for nothing, for the one type that is left or for several. -/
theorem unionOf_cases (types : List TypeExpr) :
    (distinct (types.flatMap alternatives) = [] ∧ unionOf types = scalar .mixed) ∨
      (∃ t, distinct (types.flatMap alternatives) = [t] ∧ unionOf types = t) ∨
      (2 ≤ (distinct (types.flatMap alternatives)).length ∧
        unionOf types = union (distinct (types.flatMap alternatives))) := by
  unfold unionOf
  rcases distinct (types.flatMap alternatives) with _ | ⟨t, _ | ⟨u, rest⟩⟩
  · exact Or.inl ⟨rfl, rfl⟩
  · exact Or.inr (Or.inl ⟨t, rfl, rfl⟩)
  · exact Or.inr (Or.inr ⟨by simp, rfl⟩)

theorem unionOf_singleton {t : TypeExpr} (h : t.isUnion = false) : unionOf [t] = t := by
  rw [unionOf, List.flatMap_singleton, alternatives_of_single h]
  rfl

/-- Several types that differ and are no unions are the members of their union. -/
theorem unionOf_of_nodup {types : List TypeExpr} (hseveral : 2 ≤ types.length)
    (hnodup : types.Nodup) (h : ∀ t ∈ types, t.isUnion = false) : unionOf types = union types := by
  have hdistinct : distinct types = types := Inference.distinct_of_nodup hnodup
  rw [unionOf, flatMap_alternatives h, hdistinct]
  rcases types with _ | ⟨t, _ | ⟨u, rest⟩⟩
  · cases hseveral
  · simp at hseveral
  · rfl

theorem alternatives_unionOf {types : List TypeExpr} (hne : types ≠ []) (hnodup : types.Nodup)
    (h : ∀ t ∈ types, t.isUnion = false) : (unionOf types).alternatives = types := by
  rcases types with _ | ⟨t, _ | ⟨u, rest⟩⟩
  · exact absurd rfl hne
  · have ht : t.isUnion = false := h t List.mem_cons_self
    rw [unionOf_singleton ht, alternatives_of_single ht]
  · rw [unionOf_of_nodup (by simp) hnodup h]
    rfl

end TypeExpr

end RecordDefinitions
