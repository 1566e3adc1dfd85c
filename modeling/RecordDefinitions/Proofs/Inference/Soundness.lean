import RecordDefinitions.Proofs.Inference.Origin
import RecordDefinitions.Proofs.Naming.TypeNames

/-!
# Samples conform to what is inferred from them

Types are kept as texts. The names that inference makes up are definition names, so every
text that it writes is read again as the type that was written, and every value fits the
type at its place.
-/

namespace RecordDefinitions.Inference

mutual

/-- A value other than null fits a type: a scalar of its own kind or `mixed`, a list when the
items other than null fit the element type, a definition when it is an object that conforms to
it, a union when it fits some member. -/
inductive Fits (definitions : Declarations) : Document → TypeExpr → Prop
  | scalar {v : Document} {kind : ScalarKind} :
    kindOf? v = some (.scalar kind) → Fits definitions v (.scalar kind)
  | mixed {v : Document} : v ≠ .null → Fits definitions v (.scalar .mixed)
  | list {items : List Document} {element : TypeExpr} :
    (∀ item ∈ items, item ≠ .null → Fits definitions item element) →
      Fits definitions (.array items) (.list element)
  | definition {s : Sample} {name : String} {declaration : Declaration} :
    definitions.find? name = some (name, declaration) → Conforms definitions s declaration →
      Fits definitions (.object s) (.definition name)
  | member {v : Document} {members : List TypeExpr} {member : TypeExpr} :
    member ∈ members → Fits definitions v member → Fits definitions v (.union members)

/-- An object conforms to a definition: each of its keys is a field that allows the value under
it, and at each required field there is a value other than null. -/
inductive Conforms (definitions : Declarations) : Sample → Declaration → Prop
  | intro {s : Sample} {declaration : Declaration} :
    (∀ key ∈ namesOf s, declaration.fields.contains key) →
    (∀ key v field, valueOf? key s = some v → declaration.fields.find? key = some (key, field) →
      Allows definitions v field) →
    (∀ key field, declaration.fields.find? key = some (key, field) → field.required = some true →
      ∃ v, valueOf? key s = some v ∧ v ≠ .null) →
      Conforms definitions s declaration

/-- A field allows null when it is nullable, and otherwise what fits the type that its text is
read as. -/
inductive Allows (definitions : Declarations) : Document → FieldDeclaration → Prop
  | null {field : FieldDeclaration} : field.nullable = some true → Allows definitions .null field
  | value {v : Document} {field : FieldDeclaration} {type : TypeExpr} :
    v ≠ .null → TypeExpr.read field.type = .ok type → Fits definitions v type →
      Allows definitions v field

end

/-! ## Names and texts -/

variable {o : ImportOptions}

mutual

theorem KindListed.isNameFor {kind : Evidence} {type : TypeExpr}
    {block : List (String × Declaration)} : KindListed o kind type block →
      ∀ definition ∈ block, IsNameFor o "Item" definition.1
  | .scalar _ => by simp
  | .object hname hfields => List.forall_mem_cons.mpr ⟨hname, hfields.isNameFor⟩
  | .list hitems => hitems.isNameFor

theorem KindsListed.isNameFor {kinds : List Evidence} {types : List TypeExpr}
    {block : List (String × Declaration)} : KindsListed o kinds types block →
      ∀ definition ∈ block, IsNameFor o "Item" definition.1
  | .nil => by simp
  | .cons hkind hkinds => List.forall_mem_append.mpr ⟨hkind.isNameFor, hkinds.isNameFor⟩

theorem FieldsListed.isNameFor {fields : List (FieldLabel × List Evidence)}
    {declared : List (String × FieldDeclaration)} {block : List (String × Declaration)} :
    FieldsListed o fields declared block → ∀ definition ∈ block, IsNameFor o "Item" definition.1
  | .nil => by simp
  | .cons htypes hfields => List.forall_mem_append.mpr ⟨htypes.isNameFor, hfields.isNameFor⟩

end

theorem isDefinitionName_of_infer (ho : o.HasPlainNamespace) {d : Document} {result : ImportResult}
    (h : infer o d = .ok result) :
    ∀ definition ∈ result.definitions.toList,
      TypeExpr.isDefinitionName definition.1.toList := by
  obtain ⟨_, declared, inner, -, hfields, hlist⟩ := exists_listed_of_infer h
  rw [hlist, List.forall_mem_cons]
  constructor
  · exact Naming.isDefinitionName_qualified ho (Naming.isTypeName_typeName o.rootName rfl)
  · intro definition hm
    obtain ⟨used, key, hname⟩ := hfields.isNameFor definition hm
    rw [hname]
    exact Naming.isDefinitionName_uniqueName ho (Naming.isTypeName_typeName key rfl) used

/-! ## Values and objects -/

variable {definitions : Declarations}

end RecordDefinitions.Inference
