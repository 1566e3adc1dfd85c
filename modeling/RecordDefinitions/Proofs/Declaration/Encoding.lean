import RecordDefinitions.Declaration.Decoding
import RecordDefinitions.Declaration.Encoding
import RecordDefinitions.Proofs.Outcome

/-!
# Declarations in documents and back

Declarations are found again in their own document, with their order and with everything
that they leave out. Only a default can be any document; it is kept as it is if none of its
objects repeats a key.
-/

namespace RecordDefinitions

/-! ## Repeated keys -/

namespace Document

mutual

/-- Where no key is repeated there is nothing to decide. -/
theorem merged_of_keysOnce (d : Document) (h : d.KeysOnce) : d.merged = d := by
  cases d with
  | null | bool | number | string => rw [merged]
  | array items => rw [merged, mergedItems_of_keysOnce items h]
  | object members =>
    rw [merged, mergedMembers, mergedPairs_of_keysOnce members h.2, Catalogue.toList_ofList h.1]

theorem mergedItems_of_keysOnce (items : List Document) (h : KeysOnceItems items) :
    mergedItems items = items := by
  cases items with
  | nil => rw [mergedItems]
  | cons d rest =>
    rw [mergedItems, merged_of_keysOnce d h.1, mergedItems_of_keysOnce rest h.2]

theorem mergedPairs_of_keysOnce (members : List (String × Document)) (h : KeysOnceMembers members) :
    mergedPairs members = members := by
  rcases members with _ | ⟨⟨key, d⟩, rest⟩
  · rw [mergedPairs]
  · rw [mergedPairs, merged_of_keysOnce d h.1, mergedPairs_of_keysOnce rest h.2]

end

end Document

/-- No object in the default of a field repeats a key. -/
def FieldDeclaration.DefaultKeysOnce (f : FieldDeclaration) : Prop :=
  ∀ d, f.defaultValue = some d → d.KeysOnce

/-- No object in a default repeats a key. -/
def Declaration.DefaultKeysOnce (d : Declaration) : Prop :=
  ∀ f ∈ d.fields.toList, f.2.DefaultKeysOnce

/-- No object in a default repeats a key. -/
def Declarations.DefaultKeysOnce (ds : Declarations) : Prop :=
  ∀ d ∈ ds.toList, d.2.DefaultKeysOnce

/-! ## Members that may be left out -/

section Members

variable {α : Type}

theorem findNamed?_append [Named α] (key : String) (as bs : List α) :
    findNamed? key (as ++ bs) = (findNamed? key as).or (findNamed? key bs) :=
  List.find?_append

theorem findNamed?_cons [Named α] (key : String) (a : α) (as : List α) :
    findNamed? key (a :: as) = if nameOf a = key then some a else findNamed? key as := by
  by_cases h : nameOf a = key <;> simp [findNamed?, h]

theorem findNamed?_optionalMember (key other : String) (encode : α → Document) (o : Option α) :
    findNamed? key (optionalMember other encode o) =
      if other = key then o.map fun a => (other, encode a) else none := by
  cases o with
  | none => simp [optionalMember, findNamed?]
  | some a => by_cases h : other = key <;> simp [optionalMember, findNamed?, h]

theorem namesOf_optionalMember_sublist (key : String) (encode : α → Document) (o : Option α) :
    (namesOf (optionalMember key encode o)).Sublist [key] := by
  cases o with
  | none => exact List.nil_sublist _
  | some a => exact List.Sublist.refl _

/-- Items of a catalogue that are encoded one by one are decoded one by one. -/
theorem mapM_decode_encode {ε : Type} {encode : α → Document}
    {decode : Document → Except ε α} {items : List (String × α)}
    (h : ∀ item ∈ items, decode (encode item.2) = .ok item.2) :
    ((items.map fun (name, a) => (name, encode a)).mapM fun (name, d) => do
      return (name, ← decode d)) = .ok items := by
  rw [mapM_eq_ok_iff, List.forall₂_map_left_iff, List.forall₂_same]
  intro item hitem
  rw [bind_eq_ok_iff]
  exact ⟨item.2, h item hitem, rfl⟩

end Members

/-! ## Fields -/

namespace FieldDeclaration

variable {f : FieldDeclaration}

theorem optional_map {α : Type} (decode : Document → Option α) (encode : α → Document)
    (h : ∀ a, decode (encode a) = some a) (hnull : ∀ a, encode a ≠ .null) (o : Option α) :
    optional decode (o.map encode) = some o := by
  cases o with
  | none => rfl
  | some a =>
    unfold optional
    split
    · next hnone => cases hnone
    · next hsome => exact absurd (Option.some.inj hsome) (hnull a)
    · next d hsome =>
      cases hsome
      rw [h, Option.map_some]

@[simp] theorem optional_bool (o : Option Bool) : optional Document.asBool? (o.map .bool) = some o :=
  optional_map Document.asBool? .bool (fun _ => rfl) (fun _ => by simp) o

@[simp] theorem optional_string (o : Option String) :
    optional Document.asString? (o.map .string) = some o :=
  optional_map Document.asString? .string (fun _ => rfl) (fun _ => by simp) o

/-- The marks of a field that are said come in the order of the keys. -/
theorem namesOf_members_sublist (f : FieldDeclaration) : (namesOf f.members).Sublist keys := by
  have happend {as bs : List (String × Document)} : namesOf (as ++ bs) = namesOf as ++ namesOf bs :=
    List.map_append
  have htype : (namesOf [("type", Document.string f.type)]).Sublist ["type"] := .refl _
  simp only [members, happend]
  exact (((((((htype.append (namesOf_optionalMember_sublist ..)).append
    (namesOf_optionalMember_sublist ..)).append (namesOf_optionalMember_sublist ..)).append
    (namesOf_optionalMember_sublist ..)).append (namesOf_optionalMember_sublist ..)).append
    (namesOf_optionalMember_sublist ..)).append (namesOf_optionalMember_sublist ..))

theorem ofValues_members (h : f.DefaultKeysOnce) :
    ofValues (fun key => (findNamed? key f.members).map Prod.snd) = some f := by
  have hdefault : f.defaultValue.map Document.merged = f.defaultValue := by
    cases hd : f.defaultValue with
    | none => rfl
    | some d => rw [Option.map_some, Document.merged_of_keysOnce d (h d hd)]
  simp [ofValues, members, findNamed?_append, findNamed?_cons, findNamed?_optionalMember,
    Function.comp_def, Document.asString?, hdefault]

/-- A field is found again in its document, and a mark that was left out is left out again. -/
theorem ofDocument_toDocument (h : f.DefaultKeysOnce) : ofDocument f.toDocument = .ok f := by
  unfold toDocument
  split
  · next hplain =>
    have hf : f = ofType f.type := of_decide_eq_true hplain
    exact congrArg Except.ok hf.symm
  · have hnames := f.namesOf_members_sublist
    have hkeys : (namesOf f.members).all (keys.contains ·) := by
      rw [List.all_eq_true]
      exact fun key hkey => List.contains_iff_mem.mpr (hnames.subset hkey)
    have hnodup : (namesOf f.members).Nodup := hnames.nodup (by decide)
    rw [ofDocument, ofDocument?, if_pos ⟨hkeys, hnodup⟩, ofValues_members h]

end FieldDeclaration

/-! ## Definitions -/

namespace Declaration

variable {seen : List String} {decl next : Declaration} {rest : List (String × Document)}

theorem withMembers_cons {key : String} {d : Document} (hseen : key ∉ seen)
    (hvalue : decl.withValue key d = .ok next) :
    withMembers seen decl ((key, d) :: rest) = withMembers (key :: seen) next rest := by
  rw [withMembers, if_neg (by simpa using hseen), hvalue]
  rfl

theorem withMembers_parent (seen : List String) {parent : String} (hseen : "parent" ∉ seen) :
    withMembers seen decl (("parent", .string parent) :: rest) =
      withMembers ("parent" :: seen) { decl with parent := some parent } rest :=
  withMembers_cons hseen rfl

theorem withMembers_immutable (seen : List String) (hseen : "immutable" ∉ seen) :
    withMembers seen decl (("immutable", .bool true) :: rest) =
      withMembers ("immutable" :: seen) { decl with immutable := true } rest :=
  withMembers_cons hseen rfl

theorem withMembers_fields (seen : List String) {d : Document}
    {fields : Catalogue (String × FieldDeclaration)}
    (hfields : decodeFields d = .ok fields) (hseen : "fields" ∉ seen) :
    withMembers seen decl [("fields", d)] = .ok { decl with fields } := by
  refine withMembers_cons hseen ?_
  simp only [withValue, hfields]
  rfl

theorem ofDocument_toDocument {d : Declaration} (h : d.DefaultKeysOnce) :
    ofDocument d.toDocument = .ok d := by
  rw [toDocument]
  generalize hmembers : Document.object (d.fields.toList.map _) = members
  have hfields : decodeFields members = .ok d.fields := by
    rw [← hmembers, decodeFields,
      mapM_decode_encode fun f hf => FieldDeclaration.ofDocument_toDocument (h f hf)]
    exact congrArg Except.ok d.fields.ofList_toList
  clear hmembers h
  obtain ⟨parent, immutable, fields⟩ := d
  -- The keys come in the order of the members; those that are not written keep their defaults.
  cases parent with
  | none =>
    cases immutable with
    | false => exact withMembers_fields [] hfields (by decide)
    | true =>
      refine (withMembers_immutable [] (by decide)).trans ?_
      exact withMembers_fields ["immutable"] hfields (by decide)
  | some parent =>
    refine (withMembers_parent [] (by decide)).trans ?_
    cases immutable with
    | false => exact withMembers_fields ["parent"] hfields (by decide)
    | true =>
      refine (withMembers_immutable ["parent"] (by decide)).trans ?_
      exact withMembers_fields ["immutable", "parent"] hfields (by decide)

end Declaration

theorem Declarations.ofDocument_toDocument {ds : Declarations} (h : ds.DefaultKeysOnce) :
    ofDocument ds.toDocument = .ok ds := by
  rw [toDocument, ofDocument, mapM_decode_encode fun d hd => Declaration.ofDocument_toDocument (h d hd)]
  exact congrArg Except.ok ds.ofList_toList

end RecordDefinitions
