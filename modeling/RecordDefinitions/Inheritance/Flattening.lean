import RecordDefinitions.Inheritance.Chain

/-!
# Flattened fields

All fields of a definition, inherited ones included. A field that is declared
again stays where the ancestor put it. It may widen what it replaces and not
narrow it, so that a record of the descendant can stand for one of the ancestor
in every place that reads it.
-/

namespace RecordDefinitions

/-- A field of a definition or of one of its ancestors. -/
structure FlatField where
  field : Field
  /-- The definition that declares the field. -/
  declaredIn : String
  /-- Whether an ancestor declares it. -/
  inherited : Bool
  /-- The nearest ancestor whose field of that name is replaced. -/
  overrides : Option String
  deriving DecidableEq

instance : Named FlatField := ⟨fun f => f.field.name⟩

abbrev FlatFields := Catalogue FlatField

/-- The type of a field as a message names it. -/
def Field.described (f : Field) : String :=
  f.containerType.text ++ (if f.nullable then "|null" else "")

/-- Whether a field may stand in for the one that it replaces: it is held the same
way, allows null if the other one does, and accepts its type. -/
def Field.mayReplace (descends : TypeExpr.Lineage) (own base : Field) : Bool :=
  base.holding = own.holding && (own.nullable || !base.nullable)
    && TypeExpr.accepts descends own.type base.type

namespace FlatFields

/-- Every field as a descendant inherits it. -/
def inherit (fields : FlatFields) : FlatFields :=
  fields.map (fun f => { f with inherited := true }) fun _ => rfl

/-- Declare a field in a definition, over what it inherits. -/
def declare (descends : TypeExpr.Lineage) (definition : String) (fields : FlatFields)
    (own : Field) : Except Failure FlatFields :=
  match fields.find? own.name with
  | none => .ok (fields.insert ⟨own, definition, false, none⟩)
  | some base =>
    if own.mayReplace descends base.field then
      .ok (fields.insert ⟨own, definition, false, some base.declaredIn⟩)
    else
      .error (.incompatibleOverride definition own.name base.declaredIn base.field.described
        own.described)

/-- The fields of a definition whose parent has the given fields. -/
def extend (descends : TypeExpr.Lineage) (fields : FlatFields) (d : Definition) :
    Except Failure FlatFields :=
  d.fields.toList.foldlM (declare descends d.name) (inherit fields)

end FlatFields

namespace Registry

/-- The fields of one definition over those of its parent. -/
def extendNamed (r : Registry) (fields : FlatFields) (name : String) : Except Failure FlatFields := do
  fields.extend r.lineage (← r.get name)

/-- The flattened fields of a name: its ancestors extend one another from the
root down. -/
def flatFields (r : Registry) (name : String) : Except Failure FlatFields := do
  (← r.chain name).foldlM r.extendNamed .empty

end Registry

end RecordDefinitions
