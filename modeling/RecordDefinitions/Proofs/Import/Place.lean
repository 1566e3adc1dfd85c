import RecordDefinitions.Import.Reference
import RecordDefinitions.Proofs.Text.Escaped

/-!
# Places in documents

A pointer is a spelling of a place: of the keys and numbers of items on the way from a
document to one of its parts. A reference leads to a place in a file, however it spells
the way and the path.
-/

namespace RecordDefinitions

/-- One step on the way to a part of a document. -/
inductive PlaceStep where
  | member (key : String)
  | item (index : Nat)
  deriving DecidableEq

namespace Pointer

/-- The step that a key leads to from a document. -/
def placeStep? (d : Document) (key : String) : Option PlaceStep :=
  match d with
  | .object _ => some (.member key)
  | .array _ => (placeOf? key).map .item
  | _ => none

/-- The steps that segments lead to from a document. -/
def waySteps? (d : Document) : List (List Char) → Option (List PlaceStep)
  | [] => some []
  | segment :: segments => do
    let key ← keyOf? segment
    let step ← placeStep? d key
    let next ← step? d key
    return step :: (← waySteps? next segments)

/-- The way to the part of a document that a pointer leads to. -/
def way? (d : Document) (pointer : String) : Option (List PlaceStep) :=
  (segments? pointer).bind (waySteps? d)

/-- The part that a step leads to. -/
def partAt? (d : Document) : PlaceStep → Option Document
  | .member key => d.get? key
  | .item i =>
    match d with
    | .array items => items[i]?
    | _ => none

theorem step?_of_placeStep? {d : Document} {key : String} {step : PlaceStep}
    (h : placeStep? d key = some step) : step? d key = partAt? d step := by
  cases d with
  | object members =>
    cases h
    rfl
  | array items =>
    obtain ⟨i, hi, rfl⟩ := Option.map_eq_some_iff.mp h
    simp only [step?, hi, Option.bind_some, partAt?]
  | _ => cases h

theorem exists_placeStep_of_step? {d x : Document} {key : String} (h : step? d key = some x) :
    ∃ step, placeStep? d key = some step := by
  cases d with
  | object members => exact ⟨.member key, rfl⟩
  | array items =>
    obtain ⟨i, hi, -⟩ := Option.bind_eq_some_iff.mp h
    exact ⟨.item i, Option.map_eq_some_iff.mpr ⟨i, hi, rfl⟩⟩
  | _ => cases h

/-- A pointer that leads to a part tells a way to it, and the way alone tells the part,
however it is spelled. -/
theorem exists_way_of_find? {d x : Document} {pointer : String} (h : find? d pointer = some x) :
    ∃ way, way? d pointer = some way ∧ way.foldlM partAt? d = some x := by
  obtain ⟨segments, hsegments, hfold⟩ := Option.bind_eq_some_iff.mp h
  suffices hway : ∃ way, waySteps? d segments = some way ∧ way.foldlM partAt? d = some x by
    obtain ⟨way, hway, hpart⟩ := hway
    exact ⟨way, Option.bind_eq_some_iff.mpr ⟨segments, hsegments, hway⟩, hpart⟩
  clear h hsegments
  induction segments generalizing d with
  | nil => exact ⟨[], rfl, hfold⟩
  | cons segment segments ih =>
    rw [List.foldlM_cons] at hfold
    obtain ⟨next, hnext, hrest⟩ := Option.bind_eq_some_iff.mp hfold
    obtain ⟨key, hkey, hstep⟩ := Option.bind_eq_some_iff.mp hnext
    obtain ⟨step, hplace⟩ := exists_placeStep_of_step? hstep
    obtain ⟨way, hway, hpart⟩ := ih hrest
    refine ⟨step :: way, ?_, ?_⟩
    · simp only [waySteps?, hkey, hplace, hstep, hway, Option.bind_eq_bind, Option.bind_some]
      rfl
    · rw [List.foldlM_cons, ← step?_of_placeStep? hplace, hstep]
      exact hpart

end Pointer

namespace Text

theorem mem_of_mem_pieces {separates : Char → Bool} {cs piece : List Char} {c : Char}
    (hpiece : piece ∈ pieces separates cs) (hc : c ∈ piece) : c ∈ cs := by
  induction cs generalizing piece with
  | nil =>
    rw [List.mem_singleton.mp hpiece] at hc
    cases hc
  | cons d cs ih =>
    rw [pieces] at hpiece
    split at hpiece
    · rcases List.mem_cons.mp hpiece with rfl | hpiece
      · cases hc
      · exact List.mem_cons_of_mem d (ih hpiece hc)
    · cases hrest : pieces separates cs with
      | nil => exact absurd hrest (pieces_ne_nil separates cs)
      | cons p ps =>
        rw [hrest] at hpiece ih
        rcases List.mem_cons.mp hpiece with rfl | hpiece
        · rcases List.mem_cons.mp hc with rfl | hc
          · exact List.mem_cons_self
          · exact List.mem_cons_of_mem d (ih List.mem_cons_self hc)
        · exact List.mem_cons_of_mem d (ih (List.mem_cons_of_mem p hpiece) hc)

end Text

/-- A pointer without percent signs is decoded as it is. -/
theorem Pointer.decoded_of_not_mem {pointer : String} (h : '%' ∉ pointer.toList) :
    decoded pointer = pointer := by
  have hpieces : (Text.pieces (· == '/') pointer.toList).map decodedSegment =
      Text.pieces (· == '/') pointer.toList := by
    refine (List.map_congr_left (g := id) fun piece hpiece => ?_).trans (List.map_id _)
    have hpiece' : '%' ∉ piece := fun hmem => h (Text.mem_of_mem_pieces hpiece hmem)
    unfold decodedSegment
    rw [Text.decoded?_of_not_mem hpiece']
    rfl
  unfold decoded
  rw [hpieces, Text.joined_pieces, String.ofList_toList]

/-- The pointer that a way is usually written as. -/
def Pointer.ofWay (way : List PlaceStep) : String :=
  String.join <| way.map fun
    | .member key => "/" ++ escapedSegment key
    | .item index => "/" ++ Decimal.text index

/-- A place in a file, whose path is written in the shortest way, or in a document that
comes from no file. -/
structure Place where
  file : Option Path
  way : Option (List PlaceStep)
  deriving DecidableEq

/-- The place that a reference leads to. -/
def ReferenceTarget.place (x : ReferenceTarget) : Place :=
  ⟨x.context.file.map (·.path.normalize), Pointer.way? x.context.document x.pointer⟩

end RecordDefinitions
