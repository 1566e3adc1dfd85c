import RecordDefinitions.Proofs.Declaration.Encoding
import RecordDefinitions.Proofs.Yaml.Spelling
import RecordDefinitions.Source.Basic

/-!
# Written declarations

Declarations that are written in either format are read as they were, and reading and writing
again changes nothing in the text. The text of a document is taken to be read as that
document: for JSON this is what the reader returns, for YAML it is the tree of the text.
-/

namespace RecordDefinitions

open Yaml

theorem mem_optionalMember {α : Type} {key : String} {encode : α → Document} {o : Option α}
    {member : String × Document} :
    member ∈ optionalMember key encode o ↔ ∃ a, o = some a ∧ member = (key, encode a) := by
  cases o <;> simp [optionalMember]

/-- A field says null of nothing but its default. -/
theorem FieldDeclaration.eq_defaultValue_of_null {f : FieldDeclaration}
    {member : String × Document} (h : member ∈ f.members) (hnull : member.2 = .null) :
    member.1 = "defaultValue" := by
  simp only [members, List.mem_append, List.mem_cons, mem_optionalMember] at h
  rcases h with (((((((rfl | ⟨_, _, rfl⟩) | ⟨_, _, rfl⟩) | ⟨_, _, rfl⟩) | ⟨_, _, rfl⟩) |
    ⟨_, _, rfl⟩) | ⟨_, _, rfl⟩) | ⟨_, _, rfl⟩)
  all_goals first | rfl | cases hnull

namespace Yaml.Tree

variable {t : Tree}

theorem field_of_spells {f : FieldDeclaration} (h : t.spells f.toDocument) :
    t.field = .ok f.toDocument := by
  unfold FieldDeclaration.toDocument at h ⊢
  split at h
  · next hplain =>
    obtain ⟨s, rfl, hs⟩ := exists_scalar_of_spells rfl rfl h
    rw [if_pos hplain, field, Scalar.document_of_spells hs]
  · next hplain =>
    obtain ⟨entries, rfl, hentries⟩ := exists_mapping_of_spells h
    rw [if_neg hplain, field,
      marks_of_spellsMembers hentries fun _ hm => FieldDeclaration.eq_defaultValue_of_null hm]
    rfl

theorem definition_of_spells {d : Declaration} (h : t.spells d.toDocument) :
    t.definition = .ok d.toDocument := by
  obtain ⟨entries, rfl, hentries⟩ := exists_mapping_of_spells h
  refine congrArg (Except.map Document.object) (mapM_of_spellsMembers definitionValue hentries ?_)
  intro member hmember t ht
  simp only [List.mem_append, mem_optionalMember, List.mem_singleton] at hmember
  rcases hmember with (⟨parent, -, rfl⟩ | himmutable) | rfl
  · obtain ⟨s, rfl, hs⟩ := exists_scalar_of_spells rfl rfl ht
    exact Scalar.optionalName_of_spells hs
  · split at himmutable
    · obtain rfl := List.mem_singleton.mp himmutable
      obtain ⟨s, rfl, hs⟩ := exists_scalar_of_spells rfl rfl ht
      exact Scalar.truth_of_spells hs
    · cases himmutable
  · refine named_of_spells ht fun field hfield t ht => ?_
    obtain ⟨f, -, rfl⟩ := List.mem_map.mp hfield
    exact field_of_spells ht

/-- A tree that spells the document of declarations is decoded as that document. -/
theorem declarations_of_spells {ds : Declarations} (h : t.spells ds.toDocument) :
    t.named definition = .ok ds.toDocument := by
  refine named_of_spells h fun member hmember t ht => ?_
  obtain ⟨d, -, rfl⟩ := List.mem_map.mp hmember
  exact definition_of_spells ht

end Yaml.Tree

theorem Yaml.readDeclarations_eq_ok {text : String} {t : Tree} {d : Document} {ds : Declarations}
    (htree : Tree.read text = .ok (some t)) (hdocument : t.named Tree.definition = .ok d)
    (hds : Declarations.ofDocument d = .ok ds) : Yaml.readDeclarations text = .ok ds := by
  refine bind_eq_ok_iff.mpr ⟨some t, htree, ?_⟩
  refine bind_eq_ok_iff.mpr ⟨d, hdocument, ?_⟩
  rw [hds]
  rfl

namespace Source

/-- The text that is written for a document is read as the document. -/
def ReadsBack (d : Document) : Format → Prop
  | .json => Json.read (Json.pretty d ++ "\n") = .ok d
  | .yaml => ∃ t, Tree.read (Yaml.write d) = .ok (some t) ∧ t.spells d

instance decidableReadsBack (d : Document) : (format : Format) → Decidable (ReadsBack d format)
  | .json => decidable_of_iff ((Json.read (Json.pretty d ++ "\n")).toOption = some d)
      toOption_eq_some_iff
  | .yaml => decidable_of_iff ((Tree.read (Yaml.write d)).toOption.join.any (·.spells d)) (by
      rw [ReadsBack]
      cases Tree.read (Yaml.write d) <;> simp [Except.toOption, Option.any_eq_true])

/-- Declarations that are written are read as they were, in the same order and with the same
parts left out. What is read is written as the same text. -/
theorem readDeclarations_writeDeclarations {format : Format} {ds : Declarations}
    (hkeys : ds.DefaultKeysOnce) (htext : ReadsBack ds.toDocument format) :
    readDeclarations format (writeDeclarations format ds) = .ok ds ∧
      (readDeclarations format (writeDeclarations format ds)).map (writeDeclarations format) =
        .ok (writeDeclarations format ds) := by
  have hdecode := Declarations.ofDocument_toDocument hkeys
  have hread : readDeclarations format (writeDeclarations format ds) = .ok ds := by
    cases format with
    | json =>
      have hjson : Json.read (Json.pretty ds.toDocument ++ "\n") = .ok ds.toDocument := htext
      refine bind_eq_ok_iff.mpr ⟨ds.toDocument, ?_, ?_⟩
      · rw [writeDeclarations, hjson]
        rfl
      · rw [hdecode]
        rfl
    | yaml =>
      obtain ⟨t, ht, hspells⟩ := htext
      have hyaml := readDeclarations_eq_ok ht (Tree.declarations_of_spells hspells) hdecode
      simp only [readDeclarations, writeDeclarations, hyaml]
      rfl
  rw [hread]
  exact ⟨rfl, rfl⟩

/-- A short field and one whose default is null. -/
def meter : Declarations := Catalogue.ofList
  [("Meter", ⟨some "Device", true, Catalogue.ofList
    [("unit", .ofType "string"),
      ("value", { FieldDeclaration.ofType "int" with defaultValue := some .null })]⟩)]

theorem readDeclarations_writeDeclarations_meter :
    readDeclarations .json (writeDeclarations .json meter) = .ok meter ∧
      readDeclarations .yaml (writeDeclarations .yaml meter) = .ok meter := by
  have hnull : meter.toList.all fun d => d.2.fields.toList.all fun f =>
      f.2.defaultValue.all (· = .null) := by
    decide +kernel
  have hkeys : meter.DefaultKeysOnce := by
    intro d hd f hf v hv
    have hdefault := List.all_eq_true.mp (List.all_eq_true.mp hnull d hd) f hf
    rw [hv] at hdefault
    obtain rfl : v = .null := of_decide_eq_true hdefault
    trivial
  have hboth (format : Format) : ReadsBack meter.toDocument format := by
    cases format <;> decide +kernel
  exact ⟨(readDeclarations_writeDeclarations hkeys (hboth .json)).1,
    (readDeclarations_writeDeclarations hkeys (hboth .yaml)).1⟩

end Source

end RecordDefinitions
