import RecordDefinitions.View.Basic

/-!
# Views as documents
-/

namespace RecordDefinitions

/-- A string, or null where there is none. -/
def optionalText (s : Option String) : Document := (s.map Document.string).getD .null

def Accessors.toDocument (a : Accessors) : Document :=
  .object [
    ("getter", .string a.getter),
    ("setter", optionalText a.setter),
    ("wither", .string a.wither),
    ("adder", optionalText a.adder),
    ("remover", optionalText a.remover)]

def FieldView.toDocument (f : FieldView) : Document :=
  .object [
    ("name", .string f.name),
    ("property_name", .string f.propertyName),
    ("type_ref", .string f.type.text),
    ("presentation_type", .string f.presentation),
    ("element_type", optionalText f.elementPresentation),
    ("nullable", .bool f.nullable),
    ("required", .bool f.required),
    ("default_value", f.defaultValue.getD .null),
    ("collection", .string f.holding.keyword),
    ("singular_name", optionalText f.singularName),
    ("deprecated", optionalText f.deprecated),
    ("declared_in", .string f.declaredIn),
    ("inherited", .bool f.inherited),
    ("overrides", optionalText f.overrides),
    ("accessors", f.accessors.toDocument)]

def DefinitionView.toDocument (d : DefinitionView) : Document :=
  .object [
    ("name", .string d.name),
    ("class_name", .string d.className),
    ("namespace", optionalText d.namespaceName),
    ("parent", optionalText d.parent),
    ("parent_class_name", optionalText d.parentClassName),
    ("immutable", .bool d.immutable),
    ("fields", .array (d.fields.map FieldView.toDocument)),
    ("shape", d.shape.toDocument),
    ("shape_annotation", .string d.shape.annotation)]

def ViewModel.toDocument (v : ViewModel) : Document :=
  .object [("definitions", .array (v.definitions.map DefinitionView.toDocument))]

end RecordDefinitions
