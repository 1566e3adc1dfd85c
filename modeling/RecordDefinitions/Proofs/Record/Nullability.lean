import RecordDefinitions.Proofs.Record.Log
import RecordDefinitions.Proofs.Resolution.Sets

/-!
# Null in records

A write never puts null into a field that does not allow it, but a declared default may be null for
any field. So a record holds null in such a field if and only if null is the default that is
declared for it and nothing has been written to it since. The records of a registry are free of
such nulls if and only if no definition in it declares such a default.
-/

namespace RecordDefinitions

/-- The default of a field is null only if the field allows null. -/
def Field.DefaultFits (f : Field) : Prop := f.nullable = false → f.defaultValue ≠ some .null

namespace Record

/-- No field holds null that does not allow it. -/
def NullSafe (r : Record) : Prop :=
  ∀ f ∈ r.definition.fields.toList, f.field.nullable = false → r.get f.field.name ≠ .ok (some .null)

variable {d : ResolvedDefinition} {log : List Write}

/-! ## What writes can put into a record -/

/-- A write leaves the items that have a property with it, and makes copies with it. -/
def Writing.Keeps {α : Type} (write : Writing α) (P : α → Prop) : Prop :=
  ∀ manner w a, P a → P (outcome (write manner w) a).2 ∧
    ∀ b, (outcome (write manner w) a).1 = .ok (some b) → P b

/-- What a write keeps of one item, a run of calls keeps of all. -/
theorem Writing.Keeps.forall_mem_run {α : Type} {P : α → Prop} {write : Writing α}
    (h : write.Keeps P) (calls : List Call) {items : List α} (hitems : ∀ a ∈ items, P a) :
    ∀ a ∈ (run write calls items).1, P a := by
  induction calls generalizing items with
  | nil => exact hitems
  | cons c calls ih =>
    refine ih ?_
    rcases c.step_cases write items with hstep | ⟨a, ha, hstep⟩
    · rw [hstep]
      exact hitems
    · obtain ⟨hleft, hcopy⟩ := h c.manner c.write a (hitems a (List.mem_of_getElem? ha))
      rw [hstep]
      intro x hx
      rcases List.mem_append.mp hx with hx | hx
      · rcases List.mem_or_eq_of_mem_set hx with hx | rfl
        · exact hitems x hx
        · exact hleft
      · obtain ⟨made, hmade, rfl⟩ := Option.bind_eq_some_iff.mp (Option.mem_toList.mp hx)
        exact hcopy x (toOption_eq_some_iff.mp hmade)

/-- No write in the log gives null to a field that does not allow it. -/
def Allowed (d : ResolvedDefinition) (log : List Write) : Prop :=
  ∀ f ∈ d.fields.toList, f.field.nullable = false → (f.field.name, .null) ∉ log

theorem Allowed.append {manner : Manner} {w : Write} (hlog : Allowed d log)
    (haccepted : refusal d manner w = none) : Allowed d (log ++ [w]) := by
  intro f hf hnullable hmem
  have hfind : d.fields.find? f.field.name = some f := Catalogue.find?_of_mem hf
  rcases List.mem_append.mp hmem with hmem | hmem
  · exact hlog f hf hnullable hmem
  · rw [← List.mem_singleton.mp hmem, refusal, hfind] at haccepted
    simp [hnullable] at haccepted

theorem keeps_allowed (d : ResolvedDefinition) : Writing.Keeps (logged d) (Allowed d) := by
  intro manner w log hlog
  cases hrefusal : refusal d manner w with
  | some failure =>
    rw [outcome_logged_of_refused hrefusal]
    exact ⟨hlog, fun _ h => by cases h⟩
  | none =>
    have hlonger := hlog.append hrefusal
    cases manner with
    | inPlace =>
      rw [outcome_logged_inPlace hrefusal]
      exact ⟨hlonger, fun _ h => by cases h⟩
    | intoCopy =>
      rw [outcome_logged_intoCopy hrefusal]
      refine ⟨hlog, fun copy h => ?_⟩
      cases h
      exact hlonger

theorem allowed_of_run (d : ResolvedDefinition) (calls : List Call) :
    ∀ log ∈ (run (Record.logged d) calls [[]]).1, Allowed d log := by
  refine (keeps_allowed d).forall_mem_run calls ?_
  intro log hlog
  rw [List.mem_singleton.mp hlog]
  exact fun f _ _ hmem => absurd hmem List.not_mem_nil

theorem lastWrite_eq_none_iff {name : String} : lastWrite log name = none ↔ name ∉ namesOf log := by
  rw [lastWrite, Option.map_eq_none_iff, ← Option.not_isSome_iff_eq_none, isSome_findNamed?_iff,
    namesOf, List.map_reverse, List.mem_reverse]
  rfl

theorem mem_of_lastWrite {name : String} {value : Document}
    (h : lastWrite log name = some value) : (name, value) ∈ log := by
  obtain ⟨w, hw, rfl⟩ := Option.map_eq_some_iff.mp h
  have hname : w.1 = name := by simpa using List.find?_some hw
  rw [← hname]
  exact List.mem_reverse.mp (List.mem_of_find?_eq_some hw)

/-- A field that does not allow null has null for its value only by its default. -/
theorem Allowed.lastValue_eq_null_iff (hlog : Allowed d log) {f : FlatField}
    (hf : f ∈ d.fields.toList) (hnullable : f.field.nullable = false) :
    lastValue d log f.field.name = some .null ↔
      f.field.defaultValue = some .null ∧ f.field.name ∉ namesOf log := by
  have hfind : d.fields.find? f.field.name = some f := Catalogue.find?_of_mem hf
  rw [lastValue, hfind, Option.bind_some, ← lastWrite_eq_none_iff]
  cases hlast : lastWrite log f.field.name with
  | none => simp
  | some value =>
    have hne : value ≠ .null := by
      rintro rfl
      exact hlog f hf hnullable (mem_of_lastWrite hlast)
    simp [hne]

theorem get_ofLog_of_mem {f : FlatField} (hf : f ∈ d.fields.toList) (log : List Write) :
    (ofLog d log).get f.field.name = .ok (lastValue d log f.field.name) := by
  have hknown : d.fields.contains f.field.name := Catalogue.contains_iff.mpr (List.mem_map_of_mem hf)
  rw [get_ofLog, if_pos hknown]

/-- The records of a definition are safe if and only if its defaults are: the first record shows
them, and no write makes another one unsafe. -/
theorem nullSafe_iff (d : ResolvedDefinition) :
    (∀ calls, ∀ record ∈ (run written calls [new d]).1, record.NullSafe) ↔
      ∀ f ∈ d.fields.toList, f.field.DefaultFits := by
  constructor
  · intro h f hf hnullable hdefault
    have hnew : (new d).NullSafe := h [] (new d) List.mem_cons_self
    refine hnew f hf hnullable ?_
    have hallowed : Allowed d [] := fun _ _ _ hmem => absurd hmem List.not_mem_nil
    rw [← ofLog_nil, get_ofLog_of_mem hf,
      (hallowed.lastValue_eq_null_iff hf hnullable).mpr ⟨hdefault, List.not_mem_nil⟩]
  · intro h calls record hrecord f hf hnullable hget
    rw [run_written_eq] at hrecord
    obtain ⟨log, hlog, rfl⟩ := List.mem_map.mp hrecord
    have hf : f ∈ d.fields.toList := hf
    rw [get_ofLog_of_mem hf, Except.ok.injEq,
      (allowed_of_run d calls log hlog).lastValue_eq_null_iff hf hnullable] at hget
    exact h f hf hnullable hget.1

/-! ## The records of a registry -/

variable {r : Registry} {s : ResolvedSet}

/-- The flattened fields of a resolved set are the fields that its definitions declare. -/
theorem forall_flatFields_iff (h : resolve r = .ok s) {P : Field → Prop} :
    (∀ d ∈ s.toList, ∀ f ∈ d.fields.toList, P f.field) ↔
      ∀ d ∈ r.toList, ∀ f ∈ d.fields.toList, P f := by
  have hflat {d : ResolvedDefinition} (hd : d ∈ s.toList) (f : Field) :
      (∃ flat ∈ d.fields.toList, flat.field = f) ↔ r.Flattened d.name f := by
    have hfields := Registry.flattenedBy_of_flatFields (parts_of_mem h hd).2 f f.name
    rw [FlatFields.field?_eq_some_iff] at hfields
    simpa using hfields
  constructor
  · intro hP d hd f hf
    have hfind := Registry.find?_of_mem hd
    obtain ⟨e, he, hname⟩ := exists_mem_of_contains h (Catalogue.contains_of_find? hfind)
    obtain ⟨flat, hmem, rfl⟩ := (hflat he f).mpr (hname ▸ .own hfind hf)
    exact hP e he flat hmem
  · intro hP d hd flat hmem
    obtain ⟨e, he, hown⟩ := Registry.exists_declaration ((hflat hd flat.field).mp ⟨flat, hmem, rfl⟩)
    exact hP e he flat.field hown

/-- A record that a run makes holds null in a field that does not allow it if and only if null is
the declared default of the field and its log has no write to the field. So the records of a
definition are free of such nulls if and only if its flattened fields have fitting defaults, and
those of a registry if and only if all fields that are declared in it have. -/
theorem nullSafe_iff_defaultFits (h : resolve r = .ok s) :
    (∀ d ∈ s.toList, ∀ (calls : List Call) (place : Nat) (record : Record) (log : List Write),
      (run written calls [new d]).1[place]? = some record →
      (run (logged d) calls [[]]).1[place]? = some log →
      ∀ f ∈ d.fields.toList, f.field.nullable = false →
        (record.get f.field.name = .ok (some .null) ↔
          f.field.defaultValue = some .null ∧ f.field.name ∉ namesOf log)) ∧
    (∀ d ∈ s.toList, (∀ calls, ∀ record ∈ (run written calls [new d]).1, record.NullSafe) ↔
      ∀ f ∈ d.fields.toList, f.field.DefaultFits) ∧
    ((∀ d ∈ s.toList, ∀ calls, ∀ record ∈ (run written calls [new d]).1, record.NullSafe) ↔
      ∀ d ∈ r.toList, ∀ f ∈ d.fields.toList, f.DefaultFits) := by
  refine ⟨fun d hd calls place record log hrecord hlog f hf hnullable => ?_,
    fun d hd => nullSafe_iff d, ?_⟩
  · rw [run_written_eq, List.getElem?_map, hlog, Option.map_some, Option.some.injEq] at hrecord
    have hallowed := allowed_of_run d calls log (List.mem_of_getElem? hlog)
    rw [← hrecord, get_ofLog_of_mem hf, Except.ok.injEq,
      hallowed.lastValue_eq_null_iff hf hnullable]
  · rw [← forall_flatFields_iff h]
    exact forall₂_congr fun d _ => nullSafe_iff d

/-! ## A default that does not fit -/

/-- One definition, whose field does not allow null and is declared with the default null. -/
def gauge : Declarations := Catalogue.ofList
  [("Gauge", ⟨none, false,
    Catalogue.ofList [("level", { FieldDeclaration.ofType "int" with defaultValue := some .null })]⟩)]

def gaugeLevel : Field := { Field.ofType "level" (.scalar .int) with defaultValue := some .null }

def gaugeRegistry : Registry := Catalogue.ofList [⟨"Gauge", none, false, Catalogue.ofList [gaugeLevel]⟩]

theorem ofDeclarations_gauge : Registry.ofDeclarations gauge = .ok gaugeRegistry := by rfl

/-- The definition among the resolved ones, and its only field. -/
theorem exists_gauge : ∃ s, resolve gaugeRegistry = .ok s ∧ ∃ d ∈ s.toList,
    ∃ f ∈ d.fields.toList, f.field = gaugeLevel := by
  have hok : (resolve gaugeRegistry).isOk := by decide +kernel
  obtain ⟨s, h⟩ := exists_of_isOk hok
  refine ⟨s, h, ?_⟩
  by_contra hnone
  push Not at hnone
  have hdeclared := (forall_flatFields_iff (P := (· ≠ gaugeLevel)) h).mp hnone
  exact hdeclared _ List.mem_cons_self gaugeLevel List.mem_cons_self rfl

theorem nullSafe_iff_defaultFits_gauge : ∃ s, resolve gaugeRegistry = .ok s ∧ ∃ d ∈ s.toList,
    ∃ f ∈ d.fields.toList, f.field = gaugeLevel ∧ f.field.nullable = false ∧
      (new d).get f.field.name = .ok (some .null) ∧
      ¬ ∀ calls, ∀ record ∈ (run written calls [new d]).1, record.NullSafe := by
  obtain ⟨s, h, d, hd, f, hf, hlevel⟩ := exists_gauge
  obtain ⟨hget, hsafe, -⟩ := nullSafe_iff_defaultFits h
  have hnullable : f.field.nullable = false := by rw [hlevel]; rfl
  have hdefault : f.field.defaultValue = some .null := by rw [hlevel]; rfl
  refine ⟨s, h, d, hd, f, hf, hlevel, hnullable, ?_, ?_⟩
  · exact (hget d hd [] 0 (new d) [] rfl rfl f hf hnullable).mpr ⟨hdefault, List.not_mem_nil⟩
  · rw [hsafe d hd]
    exact fun hfits => hfits f hf hnullable hdefault

/-- The declarations are accepted and resolve, and a new record of the definition holds null in its
field, which does not allow it. -/
theorem not_nullSafe_gauge : ∃ r s, Registry.ofDeclarations gauge = .ok r ∧ resolve r = .ok s ∧
    ∃ d ∈ s.toList, ∃ f ∈ d.fields.toList, f.field.nullable = false ∧
      (new d).get f.field.name = .ok (some .null) := by
  obtain ⟨s, h, d, hd, f, hf, hlevel⟩ := exists_gauge
  refine ⟨gaugeRegistry, s, ofDeclarations_gauge, h, d, hd, f, hf, by rw [hlevel]; rfl, ?_⟩
  have hlast : lastValue d [] f.field.name = some .null := by
    have hfind : d.fields.find? f.field.name = some f := Catalogue.find?_of_mem hf
    rw [lastValue, hfind, Option.bind_some, hlevel]
    rfl
  rw [← ofLog_nil, get_ofLog_of_mem hf, hlast]

end Record

end RecordDefinitions
