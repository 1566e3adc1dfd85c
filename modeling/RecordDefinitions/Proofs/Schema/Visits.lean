import RecordDefinitions.Proofs.Distinct
import RecordDefinitions.Proofs.Import.Base
import RecordDefinitions.Proofs.Schema.Calls

/-!
# What is put together

Putting the parts of a schema together visits schemas in a certain order: the target of a
reference in place of the reference, and the parts from left to right before the schema itself.
What comes out depends on the visited schemas only. A property stands where its name was visited
first and is what was declared under it last, in the document of that declaration; a name is
required if any visited schema lists it. The references that are being followed are the same
afterwards as before.
-/

namespace RecordDefinitions.Schema

/-! ## Visits -/

/-- A schema that is visited, and the document that it stands in. -/
abbrev Visit := Document × ReferenceContext

mutual

/-- The schemas that are visited for a schema, in order. -/
inductive Visits (resolver : ReferenceResolver) :
    Document → ReferenceContext → List Visit → Prop
  | target {schema : Document} {context : ReferenceContext} {r : String} {x : ReferenceTarget}
    {visits : List Visit} :
    schema.string? "$ref" = some r → targetOf resolver r context = .ok x →
      Visits resolver x.schema x.context visits → Visits resolver schema context visits
  | own {schema : Document} {context : ReferenceContext} {visits : List Visit} :
    schema.string? "$ref" = none →
      PartVisits resolver context ((schema.array? "allOf").getD []) visits →
        Visits resolver schema context (visits ++ [(schema, context)])

/-- The schemas that are visited for parts, from left to right. -/
inductive PartVisits (resolver : ReferenceResolver) :
    ReferenceContext → List Document → List Visit → Prop
  | nil {context : ReferenceContext} : PartVisits resolver context [] []
  | cons {context : ReferenceContext} {part : Document} {parts : List Document}
    {first rest : List Visit} :
    Visits resolver part context first → PartVisits resolver context parts rest →
      PartVisits resolver context (part :: parts) (first ++ rest)

end

section Order

variable {resolver : ReferenceResolver}

mutual

theorem Visits.unique : {schema : Document} → {context : ReferenceContext} →
    {visits others : List Visit} → Visits resolver schema context visits →
      Visits resolver schema context others → visits = others
  | _, _, _, _, .target hr hx h, .target hr' hx' h' => by
    rw [hr] at hr'
    cases hr'
    rw [hx] at hx'
    cases hx'
    exact h.unique h'
  | _, _, _, _, .target hr _ _, .own hr' _ => by
    rw [hr] at hr'
    cases hr'
  | _, _, _, _, .own hr _, .target hr' _ _ => by
    rw [hr] at hr'
    cases hr'
  | _, _, _, _, .own _ h, .own _ h' => by rw [h.unique h']

theorem PartVisits.unique : {context : ReferenceContext} → {parts : List Document} →
    {visits others : List Visit} → PartVisits resolver context parts visits →
      PartVisits resolver context parts others → visits = others
  | _, _, _, _, .nil, .nil => rfl
  | _, _, _, _, .cons hfirst hrest, .cons hfirst' hrest' => by
    rw [hfirst.unique hfirst', hrest.unique hrest']

end

/-- Add what the visited schemas declare, one after the other. -/
def Composition.declareAll (c : Composition) (visits : List Visit) : Composition :=
  visits.foldl (fun c v => c.declare v.1 v.2) c

theorem Composition.declareAll_append (c : Composition) (before after : List Visit) :
    c.declareAll (before ++ after) = (c.declareAll before).declareAll after :=
  List.foldl_append

/-- Whatever puts a schema together has visited schemas and added what they declare. -/
theorem exists_visits_of_composed {depth : Nat} {trail : Trail} {schema : Document}
    {context : ReferenceContext} {c comp : Composition}
    (h : composed resolver depth trail schema context c = .ok comp) :
    ∃ visits, Visits resolver schema context visits ∧ comp = c.declareAll visits := by
  induction depth generalizing trail schema context c comp with
  | zero => cases h
  | succ depth ih =>
    -- The parts are put together one after the other, each by the induction hypothesis.
    have hparts {parts : List Document} {c d : Composition}
        (hfold : parts.foldlM (fun c part => composed resolver depth trail part context c) c =
          .ok d) : ∃ visits, PartVisits resolver context parts visits ∧
            d = c.declareAll visits := by
      induction parts generalizing c with
      | nil =>
        cases hfold
        exact ⟨[], .nil, rfl⟩
      | cons part parts ihparts =>
        rw [List.foldlM_cons] at hfold
        obtain ⟨c', hpart, hrest⟩ := bind_eq_ok_iff.mp hfold
        obtain ⟨first, hfirst, rfl⟩ := ih hpart
        obtain ⟨rest, hvisits, rfl⟩ := ihparts hrest
        exact ⟨first ++ rest, .cons hfirst hvisits, (c.declareAll_append first rest).symm⟩
    cases hr : schema.string? "$ref" with
    | some r =>
      rw [composed, hr] at h
      obtain ⟨x, hx, h⟩ := bind_eq_ok_iff.mp h
      obtain ⟨next, -, h⟩ := bind_eq_ok_iff.mp h
      obtain ⟨visits, hvisits, rfl⟩ := ih h
      exact ⟨visits, .target hr hx hvisits, rfl⟩
    | none =>
      rw [composed_of_parts hr] at h
      obtain ⟨d, hfold, h⟩ := bind_eq_ok_iff.mp h
      obtain ⟨visits, hvisits, rfl⟩ := hparts hfold
      cases h
      refine ⟨visits ++ [(schema, context)], .own hr hvisits, ?_⟩
      rw [Composition.declareAll_append]
      rfl

end Order

/-! ## What visited schemas declare -/

/-- The properties that a visited schema declares, in the document of the schema. -/
def Visit.declared (v : Visit) : List (String × Property) :=
  ((v.1.object? "properties").getD []).map fun p => (p.1, ⟨p.2, v.2⟩)

/-- The names that a visited schema requires. -/
def Visit.required (v : Visit) : List String :=
  ((v.1.array? "required").getD []).filterMap Document.asString?

/-- All declarations of properties, in the order of the visits. -/
def declarations (visits : List Visit) : List (String × Property) := visits.flatMap Visit.declared

/-- All names that are required, in the order of the visits. -/
def requirements (visits : List Visit) : List String := visits.flatMap Visit.required

/-- The last declaration under each name, in the order in which the names first come. -/
def lastDeclarations (visits : List Visit) : List (String × Property) :=
  (namesOf (declarations visits)).eraseDups.filterMap fun name =>
    findNamed? name (declarations visits).reverse

namespace Composition

variable {c : Composition} {visits : List Visit}

theorem properties_declareAll :
    (c.declareAll visits).properties =
      (declarations visits).foldl Catalogue.insert c.properties := by
  induction visits generalizing c with
  | nil => rfl
  | cons v visits ih =>
    have hfirst : (c.declare v.1 v.2).properties =
        v.declared.foldl Catalogue.insert c.properties := by
      rw [Visit.declared, List.foldl_map]
      rfl
    rw [declarations, List.flatMap_cons, List.foldl_append, ← hfirst]
    exact ih

theorem required_declareAll :
    (c.declareAll visits).required = (requirements visits).foldl appendName c.required := by
  induction visits generalizing c with
  | nil => rfl
  | cons v visits ih =>
    rw [requirements, List.flatMap_cons, List.foldl_append]
    exact ih

end Composition

theorem names_foldl_insert {α : Type} [Named α] (items : List α) (c : Catalogue α) :
    (items.foldl Catalogue.insert c).names = (c.names ++ namesOf items).eraseDups := by
  have happend : (items.foldl Catalogue.insert c).names =
      (namesOf items).foldl Inference.appendNew c.names := by
    induction items generalizing c with
    | nil => rfl
    | cons item items ih =>
      rw [List.foldl_cons, ih, Catalogue.names_insert]
      rfl
  rw [happend]
  exact Inference.foldl_appendNew_eq_eraseDups c.nodup

/-- The properties of a schema, from the schemas that are visited. -/
theorem toList_properties_declareAll (visits : List Visit) :
    (Composition.empty.declareAll visits).properties.toList = lastDeclarations visits := by
  have hfind (name : String) : (Composition.empty.declareAll visits).properties.find? name =
      findNamed? name (declarations visits).reverse := by
    rw [Composition.properties_declareAll, Catalogue.find?_foldl_insert]
    exact Option.or_none
  rw [Catalogue.toList_eq_filterMap, funext hfind, Composition.properties_declareAll,
    names_foldl_insert]
  rfl

theorem required_declareAll_empty (visits : List Visit) :
    (Composition.empty.declareAll visits).required = (requirements visits).eraseDups := by
  rw [Composition.required_declareAll]
  exact Inference.foldl_appendNew_eq_eraseDups List.nodup_nil

theorem names_lastDeclarations (visits : List Visit) :
    namesOf (lastDeclarations visits) = (namesOf (declarations visits)).eraseDups := by
  rw [← toList_properties_declareAll]
  change (Composition.empty.declareAll visits).properties.names = _
  rw [Composition.properties_declareAll, names_foldl_insert]
  rfl

/-- A declaration counts if its name is not declared again after it. -/
theorem mem_lastDeclarations_iff {visits : List Visit} {p : String × Property} :
    p ∈ lastDeclarations visits ↔ ∃ before after,
      declarations visits = before ++ p :: after ∧ p.1 ∉ namesOf after := by
  have hlast : p ∈ lastDeclarations visits ↔
      findNamed? p.1 (declarations visits).reverse = some p := by
    rw [← toList_properties_declareAll, ← Option.or_none (o := findNamed? _ _),
      ← Catalogue.find?_empty p.1, ← Catalogue.find?_foldl_insert,
      Catalogue.find?_eq_some_iff, Composition.properties_declareAll]
    exact (and_iff_left rfl).symm
  have hother (q : String × Property) : (!(nameOf q == p.1)) = true ↔ nameOf q ≠ p.1 := by
    simp
  rw [hlast, findNamed?, List.find?_eq_some_iff_append]
  simp only [hother]
  constructor
  · rintro ⟨-, after, before, hsplit, hafter⟩
    refine ⟨before.reverse, after.reverse, ?_, fun hm => ?_⟩
    · rw [← List.reverse_inj, hsplit]
      simp
    · obtain ⟨q, hq, hname⟩ := List.mem_map.mp hm
      exact hafter q (List.mem_reverse.mp hq) hname
  · rintro ⟨before, after, hsplit, hafter⟩
    refine ⟨by simp, after.reverse, before.reverse, by simp [hsplit], fun q hq hname => ?_⟩
    exact hafter (List.mem_map.mpr ⟨q, List.mem_reverse.mp hq, hname⟩)

/-! ## The references that are being followed -/

/-- Putting together with a stack of references: the reference is pushed before its target is
visited, and what is on top is taken away afterwards. -/
def composeOnStack (s : Setting) :
    Nat → Document → ReferenceContext → Trail × Composition → Convert (Trail × Composition)
  | 0, _, _, _ => tooDeep
  | depth + 1, schema, context, (stack, c) =>
    match schema.string? "$ref" with
    | some reference => do
      let t ← target s reference context
      let pushed ← ofExcept (stack.enter (targetKey t) reference)
      let (stack, c) ← composeOnStack s depth t.schema t.context (pushed, c)
      return (stack.dropLast, c)
    | none => do
      let (stack, c) ← ((schema.array? "allOf").getD []).foldlM
        (fun state part => composeOnStack s depth part context state) (stack, c)
      return (stack, c.declare schema context)

/-- The stack is left as it was. -/
theorem composeOnStack_eq (s : Setting) (depth : Nat) (schema : Document)
    (context : ReferenceContext) (stack : Trail) (c : Composition) :
    composeOnStack s depth schema context (stack, c) =
      (do return (stack, ← compose s depth stack schema context c)) := by
  induction depth generalizing schema context stack c with
  | zero => rfl
  | succ depth ih =>
    have hparts (parts : List Document) : parts.foldlM
        (fun state part => composeOnStack s depth part context state) (stack, c) =
          (do return (stack, ← parts.foldlM
            (fun c part => compose s depth stack part context c) c)) := by
      induction parts generalizing c with
      | nil => simp
      | cons part parts ihparts =>
        rw [List.foldlM_cons, List.foldlM_cons, ih]
        simp only [bind_assoc, pure_bind, ihparts]
    rw [composeOnStack, compose]
    cases schema.string? "$ref" with
    | some r =>
      simp only [bind_assoc]
      congr 1
      funext x
      cases henter : stack.enter (targetKey x) r with
      | error e => rfl
      | ok pushed =>
        obtain ⟨-, rfl⟩ := Trail.enter_eq_ok_iff.mp henter
        change (composeOnStack _ _ _ _ _ >>= _) = (compose _ _ _ _ _ _ >>= _)
        rw [ih]
        simp only [bind_assoc, pure_bind, List.dropLast_concat]
    | none =>
      simp only [hparts, bind_assoc, pure_bind]

/-! ## Records -/

/-- Properties are converted one after the other, each in the document that it was declared in
and while the same references are being followed. -/
inductive FieldsConverted (inner : FieldType) (trail : Trail) (required : List String) :
    Progress → List (String × Property) → List (String × FieldDeclaration) → Progress → Prop
  | nil {t : Progress} : FieldsConverted inner trail required t [] [] t
  | cons {t v u : Progress} {name : String} {p : Property} {type : TypeExpr} {nullable : Bool}
    {ps : List (String × Property)} {fields : List (String × FieldDeclaration)} :
    outcome (inner trail p.schema (Naming.pascal name) p.context) t = (.ok (type, nullable), v) →
      FieldsConverted inner trail required v ps fields u →
        FieldsConverted inner trail required t ((name, p) :: ps)
          ((name, { FieldDeclaration.ofType type.text with
            nullable := if nullable then some true else none
            required := if name ∈ required then some true else none
            defaultValue := p.schema.get? "default"
            deprecated := deprecation? p.schema }) :: fields) u

section Records

variable {s : Setting} {inner : FieldType} {trail : Trail} {schema : Document}
  {context : ReferenceContext} {t u : Progress}

theorem FieldsConverted.names {required : List String} {ps : List (String × Property)}
    {fields : List (String × FieldDeclaration)}
    (h : FieldsConverted inner trail required t ps fields u) : namesOf fields = namesOf ps := by
  induction h with
  | nil => rfl
  | cons _ _ ih => exact congrArg (List.cons _) ih

theorem fieldsConverted_of_mapM {comp : Composition} {required : List String}
    (hrequired : ∀ name, name ∈ comp.required ↔ name ∈ required) {ps : List (String × Property)}
    {fields : List (String × FieldDeclaration)}
    (h : outcome (ps.mapM (namedField inner trail comp)) t = (.ok fields, u)) :
    FieldsConverted inner trail required t ps fields u := by
  induction ps generalizing t fields with
  | nil =>
    cases h
    exact .nil
  | cons p ps ih =>
    rw [List.mapM_cons] at h
    obtain ⟨field, w, hfield, hrest⟩ := outcome_bind_eq_ok_iff.mp h
    obtain ⟨rest, w', hfields, hlast⟩ := outcome_bind_eq_ok_iff.mp hrest
    cases hlast
    obtain ⟨declared, v, hconvert, hlast⟩ := outcome_bind_eq_ok_iff.mp hfield
    cases hlast
    obtain ⟨⟨type, nullable⟩, v, hinner, hlast⟩ := outcome_bind_eq_ok_iff.mp hconvert
    cases hlast
    have hlisted : (if comp.required.contains p.1 then some true else none) =
        if p.1 ∈ required then some true else none := by
      simp only [List.contains_iff_mem, hrequired]
    rw [hlisted]
    exact .cons hinner (ih hfields)

/-- What putting together gives, from the visited schemas. -/
theorem exists_visits_of_compose {depth : Nat} {comp : Composition}
    (ht : t.lookup.Valid s.resolver.loader)
    (h : outcome (compose s depth trail schema context .empty) t = (.ok comp, u)) :
    ∃ visits, (∀ others, Visits s.resolver schema context others ↔ others = visits) ∧
      comp.properties.toList = lastDeclarations visits ∧
      comp.required = (requirements visits).eraseDups ∧
      ∃ m : LookupMemory, u = { t with lookup := m } := by
  obtain ⟨m, -, hsearch⟩ := searches_compose (s := s) depth trail schema context .empty t ht
  rw [h] at hsearch
  obtain ⟨hcomposed, hlater⟩ := Prod.ext_iff.mp hsearch
  obtain ⟨visits, hvisits, rfl⟩ := exists_visits_of_composed hcomposed.symm
  refine ⟨visits, fun others => ⟨fun hothers => hothers.unique hvisits, ?_⟩,
    toList_properties_declareAll visits, required_declareAll_empty visits, m, hlater⟩
  rintro rfl
  exact hvisits

/-- The properties of a schema are the last declarations of the visited schemas, in the order in
which their names were first visited: a declaration counts if its name is not declared again after
it. The required names are those that a visited schema lists. Nothing but the memory of documents
and no reference that is being followed is different afterwards. A record has one field for each
property, in this order. -/
theorem compose_eq_lastDeclarations (ht : t.lookup.Valid s.resolver.loader) :
    (∀ depth comp u, outcome (compose s depth trail schema context .empty) t = (.ok comp, u) →
      ∃ visits, (∀ others, Visits s.resolver schema context others ↔ others = visits) ∧
        comp.properties.toList = lastDeclarations visits ∧
        comp.properties.names = (namesOf (declarations visits)).eraseDups ∧
        (∀ p, p ∈ comp.properties.toList ↔ ∃ before after,
          declarations visits = before ++ p :: after ∧ p.1 ∉ namesOf after) ∧
        comp.required = (requirements visits).eraseDups ∧
        (∃ m : LookupMemory, u = { t with lookup := m }) ∧
        outcome (composeOnStack s depth schema context (trail, .empty)) t =
          (.ok (trail, comp), u)) ∧
    ∀ inner d u, outcome (convertRecord s inner trail schema context) t = (.ok d, u) →
      ∃ visits, (∀ others, Visits s.resolver schema context others ↔ others = visits) ∧
        ∃ m : LookupMemory, d.parent = none ∧ d.immutable = false ∧
          FieldsConverted inner trail (requirements visits) { t with lookup := m }
            (lastDeclarations visits) d.fields.toList u := by
  constructor
  · intro depth comp u h
    obtain ⟨visits, hvisits, hprops, hrequired, hlater⟩ := exists_visits_of_compose ht h
    have hnames : comp.properties.names = (namesOf (declarations visits)).eraseDups := by
      rw [← names_lastDeclarations, ← hprops]
      rfl
    refine ⟨visits, hvisits, hprops, hnames, ?_, hrequired, hlater, ?_⟩
    · rw [hprops]
      exact fun p => mem_lastDeclarations_iff
    rw [composeOnStack_eq, outcome_bind_of_ok h]
    rfl
  · intro inner d u h
    obtain ⟨comp, v, hcomp, hrest⟩ := outcome_bind_eq_ok_iff.mp h
    obtain ⟨fields, w, hfields, hlast⟩ := outcome_bind_eq_ok_iff.mp hrest
    cases hlast
    obtain ⟨visits, hvisits, hprops, hrequired, m, rfl⟩ := exists_visits_of_compose ht hcomp
    have hlisted (name : String) : name ∈ comp.required ↔ name ∈ requirements visits := by
      rw [hrequired, List.mem_eraseDups]
    have hconverted := fieldsConverted_of_mapM hlisted hfields
    have hnodup : (namesOf fields).Nodup := hconverted.names ▸ comp.properties.nodup
    refine ⟨visits, hvisits, m, rfl, rfl, ?_⟩
    change FieldsConverted _ _ _ _ _ (Catalogue.ofList fields).toList _
    rw [Catalogue.toList_ofList hnodup, ← hprops]
    exact hconverted

end Records

/-! ## Parts from another document -/

/-- A user, whose mail address refers to the document that it stands in. -/
def userDocument : Document := .object
  [("user", .object [("properties", .object [("id", .object [("type", .string "integer")]),
      ("mail", .object [("$ref", .string "#/mail")])]), ("required", .array [.string "id"])]),
    ("mail", .object [("type", .string "string")])]

def userText : String :=
  "\x7b\"user\":\x7b\"properties\":\x7b\"id\":\x7b\"type\":\"integer\"\x7d," ++
    "\"mail\":\x7b\"$ref\":\"#/mail\"\x7d\x7d,\"required\":[\"id\"]\x7d," ++
    "\"mail\":\x7b\"type\":\"string\"\x7d\x7d"

/-- A user with another identification and a level. -/
def adminSchema : Document := .object
  [("allOf", .array [.object [("$ref", .string "user.json#/user")],
    .object [("properties", .object [("level", .object [("type", .string "integer")]),
      ("id", .object [("type", .string "string")])]),
      ("required", .array [.string "level", .string "id"])]])]

def adminContext : ReferenceContext := ⟨adminSchema, none⟩

def adminSetting : Setting := ⟨.usual, ⟨.here, .ofList [("user.json", userText)]⟩, 8⟩

def userPath : Path := ⟨false, [.down "user.json"]⟩

/-- The document of the user has been read. -/
def userProgress : Progress :=
  { Progress.empty with lookup := ⟨[(userPath, userDocument)], [userPath]⟩ }

/-- A reference to the administrator is being followed. -/
def adminTrail : Trail := [(⟨none, "/admin"⟩, "#/admin")]

theorem valid_userProgress : userProgress.lookup.Valid adminSetting.resolver.loader := by
  intro path d h
  have hpath : path = userPath ∧ d = userDocument := by
    change List.lookup path [(userPath, userDocument)] = some d at h
    rw [List.lookup_cons] at h
    split at h
    · rename_i hsame
      exact ⟨beq_iff_eq.mp hsame, (Option.some.inj h).symm⟩
    · cases h
  obtain ⟨rfl, rfl⟩ := hpath
  have hformat : Format.ofPath userPath = .json := by decide
  refine ⟨userText, by decide +kernel, ?_⟩
  rw [hformat]
  refine Source.readDocument_json (toOption_eq_some_iff.mp (by decide +kernel)) ?_
  simp [userDocument, Document.KeysOnce, Document.KeysOnceMembers, Document.KeysOnceItems, namesOf]

theorem exists_composed_admin : ∃ comp u,
    outcome (compose adminSetting 4 adminTrail adminSchema adminContext .empty) userProgress =
      (.ok comp, u) ∧ comp.properties.names = ["id", "mail", "level"] ∧
        comp.required = ["id", "level"] :=
  exists_outcome_of_decide (by decide +kernel)

theorem exists_converted_admin : ∃ d u,
    outcome (convertRecord adminSetting (fieldType adminSetting 4) adminTrail adminSchema
      adminContext) userProgress = (.ok d, u) ∧
        d.fields.toList.map (fun f => (f.1, f.2.type, f.2.required)) =
          [("id", "string", some true), ("mail", "string", none), ("level", "int", some true)] :=
  exists_outcome_of_decide (by decide +kernel)

theorem compose_eq_lastDeclarations_admin :
    userProgress.lookup.Valid adminSetting.resolver.loader ∧
    ∃ visits, Visits adminSetting.resolver adminSchema adminContext visits ∧
      namesOf (lastDeclarations visits) = ["id", "mail", "level"] ∧
      (requirements visits).eraseDups = ["id", "level"] ∧
      (∃ comp u, outcome (composeOnStack adminSetting 4 adminSchema adminContext
        (adminTrail, .empty)) userProgress = (.ok (adminTrail, comp), u) ∧
          comp.properties.toList = lastDeclarations visits) ∧
      ∃ (d : Declaration) (u : Progress) (m : LookupMemory),
        FieldsConverted (fieldType adminSetting 4) adminTrail (requirements visits)
          { userProgress with lookup := m } (lastDeclarations visits) d.fields.toList u ∧
        d.fields.toList.map (fun f => (f.1, f.2.type, f.2.required)) =
          [("id", "string", some true), ("mail", "string", none), ("level", "int", some true)] := by
  obtain ⟨comp, u, hcomp, hnames, hrequired⟩ := exists_composed_admin
  obtain ⟨d, w, hconvert, hfields⟩ := exists_converted_admin
  obtain ⟨hcollects, hconverts⟩ := compose_eq_lastDeclarations valid_userProgress
  obtain ⟨visits, hvisits, hprops, -, -, hlisted, -, hstack⟩ := hcollects 4 comp u hcomp
  obtain ⟨others, hothers, m, -, -, hconverted⟩ := hconverts _ d w hconvert
  obtain rfl : others = visits := (hvisits others).mp ((hothers others).mpr rfl)
  refine ⟨valid_userProgress, others, (hothers others).mpr rfl, ?_, ?_, ⟨comp, u, hstack, hprops⟩,
    d, w, m, hconverted, hfields⟩
  · rw [← hprops]
    exact hnames
  · rw [← hlisted]
    exact hrequired

end RecordDefinitions.Schema
