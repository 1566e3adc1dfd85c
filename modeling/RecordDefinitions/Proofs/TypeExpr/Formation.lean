import RecordDefinitions.Proofs.TypeExpr.Normal

/-!
# Types that can be formed

What the reader gives and what can be formed from scalars and names, by lists, maps and
unions, are the same types, and each of them is read from its own text.
-/

namespace RecordDefinitions.TypeExpr

/-- Types that are formed from scalars, definition names and external paths. -/
inductive Formed : TypeExpr → Prop
  | scalar (kind : ScalarKind) : Formed (scalar kind)
  | definition {name : String} (hname : isDefinitionName name.toList) : Formed (definition name)
  | external {path : String}
    (hpath : (Text.pieces (· == '\\') path.toList).all isIdentifier) : Formed (external path)
  | list {element : TypeExpr} (helement : Formed element) : Formed (list element)
  | map {element : TypeExpr} (helement : Formed element) : Formed (map element)
  | unionOf {types : List TypeExpr} (htypes : ∀ t ∈ types, Formed t) : Formed (unionOf types)

variable {t : TypeExpr}

/-- However unions are nested and members repeated, the type that is formed is readable. -/
theorem Formed.readable (ht : Formed t) : Readable t := by
  induction ht with
  | scalar kind => exact .scalar kind
  | definition hname => exact .definition hname
  | external hpath => exact .external hpath
  | list _ ih => exact .list ih
  | map _ ih => exact .map ih
  | unionOf _ ih => exact readable_unionOf_of_forall ih

/-- A union without unions and repetitions is formed from its members. -/
theorem Readable.formed (ht : Readable t) : Formed t := by
  induction ht with
  | scalar kind => exact .scalar kind
  | definition hname => exact .definition hname
  | external hpath => exact .external hpath
  | list _ ih => exact .list ih
  | map _ ih => exact .map ih
  | union _ hsingle hnodup hseveral ih =>
    rw [← unionOf_of_nodup hseveral hnodup hsingle]
    exact .unionOf ih

/-- A type can be formed if and only if it is read from its own text, and the types that can
be formed are those that the reader gives for any text, with or without null. -/
theorem formed_iff_read (t : TypeExpr) :
    (Formed t ↔ read t.text = .ok t) ∧ (Formed t ↔ ∃ text, read text = .ok t) ∧
      (Formed t ↔ ∃ text nullable, readNullable text = .ok (t, nullable)) := by
  have hread (ht : Formed t) : read t.text = .ok t := ht.readable.read_text
  refine ⟨⟨hread, ?_⟩, ⟨fun ht => ⟨t.text, hread ht⟩, ?_⟩, ⟨fun ht => ?_, ?_⟩⟩
  · exact fun h => (readable_of_read h).formed
  · rintro ⟨text, h⟩
    exact (readable_of_read h).formed
  · exact ⟨t.text, false, ht.readable.readNullable_text⟩
  · rintro ⟨text, nullable, h⟩
    exact (readable_of_readNullable h).formed

end RecordDefinitions.TypeExpr
