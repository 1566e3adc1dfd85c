import RecordDefinitions.Proofs.Distinct
import RecordDefinitions.Proofs.Inference.Origin

/-!
# Samples that come again

What values show is a matter of which values there are and where each kind and key is first seen.
Values that come again at the end add nothing to it: the objects, items and values at keys that
they bring are there already, at every depth. So samples that come again change neither the
definitions that are inferred nor the warnings.
-/

namespace RecordDefinitions.Inference

/-! ## What values and samples show -/

theorem objectsOf_append (values more : List Document) :
    objectsOf (values ++ more) = objectsOf values ++ objectsOf more :=
  List.filterMap_append

theorem itemsOf_append (values more : List Document) :
    itemsOf (values ++ more) = itemsOf values ++ itemsOf more := by
  rw [itemsOf, List.filterMap_append, List.flatten_append, List.filter_append]
  rfl

theorem valuesAt_append (samples more : List Sample) (key : String) :
    valuesAt (samples ++ more) key = valuesAt samples key ++ valuesAt more key := by
  rw [valuesAt, List.filterMap_append, List.filter_append]
  rfl

variable {values repeats : List Document} {samples again : List Sample}

theorem objectsOf_subset (h : repeats ⊆ values) : objectsOf repeats ⊆ objectsOf values :=
  List.filterMap_subset _ h

theorem itemsOf_subset (h : repeats ⊆ values) : itemsOf repeats ⊆ itemsOf values := by
  intro d hd
  obtain ⟨hnull, items, hitems, hd⟩ := mem_itemsOf.mp hd
  exact mem_itemsOf.mpr ⟨hnull, items, h hitems, hd⟩

theorem valuesAt_subset (h : again ⊆ samples) (key : String) :
    valuesAt again key ⊆ valuesAt samples key := by
  intro d hd
  obtain ⟨hnull, s, hs, hvalue⟩ := mem_valuesAt.mp hd
  exact mem_valuesAt.mpr ⟨hnull, s, h hs, hvalue⟩

/-- Every sample has a value at a key if every one of the different samples has. -/
theorem required_append (h : again ⊆ samples) (key : String) :
    (valuesAt (samples ++ again) key).length = (samples ++ again).length ↔
      (valuesAt samples key).length = samples.length := by
  rw [length_valuesAt_eq_iff, length_valuesAt_eq_iff, List.forall_mem_append]
  exact and_iff_left_of_imp fun hall s hs => hall s (h hs)

theorem any_append_of_subset {α : Type} {as more : List α} (h : more ⊆ as) (p : α → Bool) :
    (as ++ more).any p = as.any p := by
  rw [List.any_append, Bool.or_eq_left_iff_imp, List.any_eq_true, List.any_eq_true]
  rintro ⟨a, ha, hp⟩
  exact ⟨a, h ha, hp⟩

/-- Samples that come again show no more fields, if the values in them show no more kinds. -/
theorem fieldsOf_append {evidence : List Document → List Evidence}
    (hevidence : ∀ values repeats : List Document, repeats ⊆ values →
      evidence (values ++ repeats) = evidence values) (h : again ⊆ samples) :
    fieldsOf evidence (samples ++ again) = fieldsOf evidence samples := by
  have hkeys : distinct ((samples ++ again).flatMap namesOf) = distinct (samples.flatMap namesOf) := by
    rw [List.flatMap_append]
    refine distinct_append_of_subset fun key hkey => ?_
    obtain ⟨s, hs, hkey⟩ := List.mem_flatMap.mp hkey
    exact List.mem_flatMap_of_mem (h hs) hkey
  rw [fieldsOf, hkeys]
  refine List.map_congr_left fun key _ => ?_
  have hnull : ((samples ++ again).filterMap (valueOf? key)).any Document.isNull =
      (samples.filterMap (valueOf? key)).any Document.isNull := by
    rw [List.filterMap_append]
    exact any_append_of_subset (List.filterMap_subset _ h) _
  have hvalues : evidence (valuesAt (samples ++ again) key) = evidence (valuesAt samples key) := by
    rw [valuesAt_append]
    exact hevidence _ _ (valuesAt_subset h key)
  simp only [hnull, hvalues, required_append h key]

/-- Values that come again show no more kinds, to any depth. -/
theorem evidenceOf_append (depth : Nat) (values repeats : List Document) (h : repeats ⊆ values) :
    evidenceOf depth (values ++ repeats) = evidenceOf depth values := by
  induction depth generalizing values repeats with
  | zero => rfl
  | succ depth ih =>
    have hkinds : distinct ((values ++ repeats).filterMap kindOf?) =
        distinct (values.filterMap kindOf?) := by
      rw [List.filterMap_append]
      exact distinct_append_of_subset (List.filterMap_subset _ h)
    have hobjects : fieldsOf (evidenceOf depth) (objectsOf (values ++ repeats)) =
        fieldsOf (evidenceOf depth) (objectsOf values) := by
      rw [objectsOf_append]
      exact fieldsOf_append ih (objectsOf_subset h)
    have hitems : evidenceOf depth (itemsOf (values ++ repeats)) =
        evidenceOf depth (itemsOf values) := by
      rw [itemsOf_append]
      exact ih _ _ (itemsOf_subset h)
    rw [evidenceOf, hkinds]
    refine List.map_congr_left fun kind _ => ?_
    cases kind with
    | scalar k => rfl
    | object => exact congrArg Evidence.object hobjects
    | list => exact congrArg Evidence.list hitems

/-! ## Samples of a document -/

theorem depthOfItems_le_iff {items : List Document} {depth : Nat} :
    depthOfItems items ≤ depth ↔ ∀ d ∈ items, depthOf d ≤ depth := by
  induction items with
  | nil => simp [depthOfItems]
  | cons d items ih => rw [depthOfItems, Nat.max_le, ih, List.forall_mem_cons]

theorem depthOfItems_le_of_subset (h : repeats ⊆ values) :
    depthOfItems repeats ≤ depthOfItems values := by
  rw [depthOfItems_le_iff]
  intro d hd
  exact depthOf_le_depthOfItems (h hd)

theorem depthOfItems_append_of_subset (h : repeats ⊆ values) :
    depthOfItems (values ++ repeats) = depthOfItems values := by
  apply Nat.le_antisymm
  · exact depthOfItems_le_of_subset (List.append_subset.mpr ⟨List.Subset.refl values, h⟩)
  · exact depthOfItems_le_of_subset (List.subset_append_left values repeats)

theorem summary_append (h : again ⊆ samples) : summary (samples ++ again) = summary samples := by
  have hdepth : depthOfItems ((samples ++ again).map .object) =
      depthOfItems (samples.map .object) := by
    rw [List.map_append]
    exact depthOfItems_append_of_subset (List.map_subset _ h)
  rw [summary, hdepth]
  exact fieldsOf_append (evidenceOf_append _) h

/-- Items that come again are samples that come again. -/
theorem exists_samples_of_subset (h : repeats ⊆ samples.map .object) :
    ∃ again, again ⊆ samples ∧ repeats = again.map .object := by
  induction repeats with
  | nil => exact ⟨[], List.nil_subset _, rfl⟩
  | cons d repeats ih =>
    obtain ⟨hd, hrepeats⟩ := List.cons_subset.mp h
    obtain ⟨s, hs, rfl⟩ := List.mem_map.mp hd
    obtain ⟨again, hagain, rfl⟩ := ih hrepeats
    exact ⟨s :: again, List.cons_subset.mpr ⟨hs, hagain⟩, rfl⟩

/-- Items of a list that come again at its end change nothing in what is inferred from it. -/
theorem infer_append_repeats {o : ImportOptions} {items repeats : List Document}
    {result : ImportResult} (h : infer o (.array items) = .ok result) (hrepeats : repeats ⊆ items) :
    infer o (.array (items ++ repeats)) = .ok result := by
  obtain ⟨samples, hsamples, hresult⟩ := bind_eq_ok_iff.mp h
  cases holdsSamples_of_samplesOf hsamples with
  | list hne =>
    obtain ⟨again, hagain, rfl⟩ := exists_samples_of_subset hrepeats
    have hmore : samplesOf (.array (samples.map .object ++ again.map .object)) =
        .ok (samples ++ again) := by
      rw [← List.map_append]
      exact samplesOf_of_holdsSamples (.list (List.append_ne_nil_of_left_ne_nil hne again))
    refine bind_eq_ok_iff.mpr ⟨samples ++ again, hmore, ?_⟩
    rw [summary_append hagain]
    exact hresult

/-- The second invoice twice more, and the first one. -/
theorem infer_append_repeats_invoices : ∃ first second result,
    invoices = .array [first, second] ∧
      infer invoiceOptions (.array [first, second]) = .ok result ∧
      [second, first, second] ⊆ [first, second] ∧
      infer invoiceOptions (.array [first, second, second, first, second]) = .ok result := by
  obtain ⟨result, h⟩ : ∃ result, infer invoiceOptions invoices = .ok result := ⟨_, rfl⟩
  have hrepeats (first second : Document) : [second, first, second] ⊆ [first, second] := by
    simp
  exact ⟨_, _, result, rfl, h, hrepeats _ _, infer_append_repeats h (hrepeats _ _)⟩

end RecordDefinitions.Inference
