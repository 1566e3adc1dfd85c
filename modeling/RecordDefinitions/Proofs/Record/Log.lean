import RecordDefinitions.Proofs.Outcome
import RecordDefinitions.Record.Basic

/-!
# Records and their logs

A record is made from another one by writing into a copy of it, or changed by writing into the
record itself. What it holds follows from the log of the writes that were accepted on the way to
it: the last value that was written to a field, or else the declared default. Calls on all the
records made so far do to these records what they do to their logs. Whether a call is refused does
not depend on what was written before, and a write that is refused leaves the record as it was.
-/

namespace RecordDefinitions

namespace Record

/-- A write gives a value to the field of a name. -/
abbrev Write := String × Document

/-- The defaults that the fields of a definition declare, in flattened order. -/
def declaredDefaults (d : ResolvedDefinition) : List Write :=
  d.fields.toList.filterMap fun f => f.field.defaultValue.map fun value => (f.field.name, value)

/-- The record of a log: the declared defaults, overwritten by the writes in order. -/
def ofLog (d : ResolvedDefinition) (log : List Write) : Record where
  definition := d
  values := Catalogue.ofList (declaredDefaults d ++ log)

/-- The last value that a log writes to a field. -/
def lastWrite (log : List Write) (name : String) : Option Document :=
  (findNamed? name log.reverse).map Prod.snd

/-- The value of a field after a log: the last one written, or else the declared default. -/
def lastValue (d : ResolvedDefinition) (log : List Write) (name : String) : Option Document :=
  (lastWrite log name).or ((d.fields.find? name).bind (·.field.defaultValue))

variable {d : ResolvedDefinition} {log : List Write} {name : String}

theorem ofLog_nil (d : ResolvedDefinition) : ofLog d [] = new d := by
  rw [ofLog, List.append_nil]
  rfl

theorem values_ofLog_append (d : ResolvedDefinition) (log : List Write) (w : Write) :
    (ofLog d (log ++ [w])).values = (ofLog d log).values.insert w := by
  rw [ofLog, ← List.append_assoc]
  exact List.foldl_append

/-! ## What a record holds -/

theorem mem_declaredDefaults {w : Write} :
    w ∈ declaredDefaults d ↔
      ∃ f ∈ d.fields.toList, f.field.name = w.1 ∧ f.field.defaultValue = some w.2 := by
  simp only [declaredDefaults, List.mem_filterMap, Option.map_eq_some_iff]
  constructor
  · rintro ⟨f, hf, value, hvalue, rfl⟩
    exact ⟨f, hf, rfl, hvalue⟩
  · rintro ⟨f, hf, hname, hvalue⟩
    exact ⟨f, hf, w.2, hvalue, by rw [hname]⟩

theorem nodup_declaredDefaults (d : ResolvedDefinition) : (namesOf (declaredDefaults d)).Nodup := by
  refine List.Nodup.sublist ?_ d.fields.nodup
  unfold declaredDefaults
  induction d.fields.toList with
  | nil => exact .slnil
  | cons f fs ih =>
    cases hdefault : f.field.defaultValue with
    | none =>
      rw [List.filterMap_cons_none (by rw [hdefault]; rfl)]
      exact ih.cons _
    | some value =>
      rw [List.filterMap_cons_some (by rw [hdefault]; rfl)]
      exact ih.cons_cons _

theorem find?_new (d : ResolvedDefinition) (name : String) :
    (new d).values.find? name =
      ((d.fields.find? name).bind (·.field.defaultValue)).map (name, ·) := by
  have htoList : (new d).values.toList = declaredDefaults d :=
    Catalogue.toList_ofList (nodup_declaredDefaults d)
  ext w
  rw [Catalogue.find?_eq_some_iff, htoList, mem_declaredDefaults, Option.map_eq_some_iff]
  constructor
  · rintro ⟨⟨f, hf, hfname, hvalue⟩, rfl⟩
    have hfind : d.fields.find? w.1 = some f := Catalogue.find?_eq_some_iff.mpr ⟨hf, hfname⟩
    exact ⟨w.2, by rw [nameOf_pair, hfind]; exact hvalue, rfl⟩
  · rintro ⟨value, hvalue, rfl⟩
    obtain ⟨f, hfind, hdefault⟩ := Option.bind_eq_some_iff.mp hvalue
    obtain ⟨hf, hfname⟩ := Catalogue.find?_eq_some_iff.mp hfind
    exact ⟨⟨f, hf, hfname, hdefault⟩, rfl⟩

/-- A record holds for each field the last value of its log. -/
theorem find?_ofLog (d : ResolvedDefinition) (log : List Write) (name : String) :
    (ofLog d log).values.find? name = (lastValue d log name).map (name, ·) := by
  have hfold : (ofLog d log).values = log.foldl Catalogue.insert (new d).values := by
    rw [ofLog, Catalogue.ofList, List.foldl_append]
    rfl
  rw [hfold, Catalogue.find?_foldl_insert, find?_new, lastValue, lastWrite]
  cases hlast : findNamed? name log.reverse with
  | none => rfl
  | some w =>
    have hname : w.1 = name := by simpa using List.find?_some hlast
    rw [Option.some_or, Option.map_some, Option.some_or, Option.map_some, ← hname]

/-- A field can be read if and only if the definition has it, whatever was written. -/
theorem get_ofLog (d : ResolvedDefinition) (log : List Write) (name : String) :
    (ofLog d log).get name =
      if d.fields.contains name then .ok (lastValue d log name)
      else .error (.unknownField d.name name) := by
  have hvalue : ((lastValue d log name).map (name, ·)).map Prod.snd = lastValue d log name := by
    rw [Option.map_map]
    exact Option.map_id'
  have hfields : (ofLog d log).definition = d := rfl
  unfold get field
  rw [find?_ofLog, hvalue, hfields, Catalogue.contains]
  cases d.fields.find? name <;> rfl

theorem toDocument_ofLog (d : ResolvedDefinition) (log : List Write) :
    (ofLog d log).toDocument =
      .object (d.fields.names.filterMap fun name => (lastValue d log name).map (name, ·)) := by
  have hvalues : (fun f : FlatField => (ofLog d log).values.find? f.field.name) =
      fun f => (lastValue d log (nameOf f)).map (nameOf f, ·) :=
    funext fun f => find?_ofLog d log f.field.name
  have hfields : (ofLog d log).definition = d := rfl
  rw [toDocument, hvalues, hfields, Catalogue.names, namesOf, List.filterMap_map]
  rfl

theorem missingRequired_ofLog (d : ResolvedDefinition) (log : List Write) :
    (ofLog d log).missingRequired =
      (namesOf (d.fields.toList.filter (·.field.required))).filter
        fun name => (lastValue d log name).isNone := by
  have hheld (name : String) :
      (!(ofLog d log).values.contains name) = (lastValue d log name).isNone := by
    rw [Catalogue.contains, find?_ofLog]
    cases lastValue d log name <;> rfl
  have hfields : (ofLog d log).definition = d := rfl
  rw [missingRequired, hfields, namesOf, List.filter_map, List.filter_filter]
  congr 2
  funext f
  rw [hheld, Bool.and_comm]
  rfl

/-! ## Calls -/

/-- Whether a call writes into the record itself or into a copy of it. -/
inductive Manner where
  | inPlace
  | intoCopy
  deriving DecidableEq

/-- Why a write is refused, if it is: it names no field, or gives null to a field that does not
allow it, or would change a record of an immutable definition. -/
def refusal (d : ResolvedDefinition) (manner : Manner) (w : Write) : Option Failure :=
  match d.fields.find? w.1 with
  | none => some (.unknownField d.name w.1)
  | some f =>
    if w.2 = .null ∧ f.field.nullable = false then some (.nullNotAllowed d.name w.1)
    else if manner = .inPlace ∧ d.definition.immutable then some (.immutableDefinition d.name w.1)
    else none

/-- Write into a record or into its copy. The record is left as the write leaves it, and the copy is
given if one is made. -/
def written (manner : Manner) (w : Write) : ExceptT Failure (StateM Record) (Option Record) := do
  match manner with
  | .inPlace =>
    assign w.1 w.2
    return none
  | .intoCopy =>
    let r ← MonadState.get
    return some (← r.replacing w.1 w.2)

/-- A value is put in after all checks have been passed, and else the record is left as it was. -/
theorem outcome_assign (name : String) (value : Document) (r : Record) :
    outcome (assign name value) r =
      match r.checkAssignable name value with
      | .error failure => (.error failure, r)
      | .ok _ =>
        if r.definition.definition.immutable then
          (.error (.immutableDefinition r.definition.name name), r)
        else (.ok (), { r with values := r.values.insert (name, value) }) := by
  unfold assign
  rw [outcome_bind_of_ok (outcome_get r), outcome_bind, outcome_liftM]
  cases r.checkAssignable name value with
  | error failure => rfl
  | ok _ => cases r.definition.definition.immutable <;> rfl

theorem outcome_written_inPlace (w : Write) (r : Record) :
    outcome (written .inPlace w) r =
      ((outcome (assign w.1 w.2) r).1.map fun _ => none, (outcome (assign w.1 w.2) r).2) := by
  rw [written, outcome_bind]
  rcases outcome (assign w.1 w.2) r with ⟨_ | _, _⟩ <;> rfl

theorem outcome_written_intoCopy (w : Write) (r : Record) :
    outcome (written .intoCopy w) r = ((r.replacing w.1 w.2).map some, r) := by
  rw [written, outcome_bind_of_ok (outcome_get r), outcome_bind, outcome_liftM]
  cases r.replacing w.1 w.2 <;> rfl

/-- A write that is refused leaves the record as it was. -/
theorem snd_outcome_written_of_error {manner : Manner} {w : Write} {r : Record} {failure : Failure}
    (h : (outcome (written manner w) r).1 = .error failure) :
    (outcome (written manner w) r).2 = r := by
  cases manner with
  | intoCopy => rw [outcome_written_intoCopy]
  | inPlace =>
    rw [outcome_written_inPlace] at h ⊢
    rw [outcome_assign] at h ⊢
    cases hcheck : r.checkAssignable w.1 w.2 with
    | error failure => rfl
    | ok _ =>
      rw [hcheck] at h
      by_cases himmutable : r.definition.definition.immutable
      · simp only [if_pos himmutable]
      · simp only [if_neg himmutable] at h
        cases h

/-- What is refused for a copy is refused in place, and then so is every write to a record of an
immutable definition. -/
theorem refusal_inPlace (d : ResolvedDefinition) (w : Write) :
    refusal d .inPlace w = (refusal d .intoCopy w).or
      (if d.definition.immutable then some (.immutableDefinition d.name w.1) else none) := by
  unfold refusal
  cases d.fields.find? w.1 with
  | none => rfl
  | some f =>
    by_cases hnull : w.2 = .null ∧ f.field.nullable = false
    · simp [hnull]
    · by_cases himmutable : d.definition.immutable <;> simp [hnull, himmutable]

/-- A log takes the writes that are not refused. -/
def logged (d : ResolvedDefinition) (manner : Manner) (w : Write) :
    ExceptT Failure (StateM (List Write)) (Option (List Write)) := do
  match refusal d manner w with
  | some failure => throw failure
  | none =>
    match manner with
    | .inPlace =>
      modify fun log => log ++ [w]
      return none
    | .intoCopy =>
      let log ← MonadState.get
      return some (log ++ [w])

theorem outcome_logged_of_refused {manner : Manner} {w : Write} {failure : Failure}
    (h : refusal d manner w = some failure) (log : List Write) :
    outcome (logged d manner w) log = (.error failure, log) := by
  unfold logged
  rw [h]
  rfl

theorem outcome_logged_inPlace {w : Write} (h : refusal d .inPlace w = none) (log : List Write) :
    outcome (logged d .inPlace w) log = (.ok none, log ++ [w]) := by
  rw [logged, h]
  rfl

theorem outcome_logged_intoCopy {w : Write} (h : refusal d .intoCopy w = none) (log : List Write) :
    outcome (logged d .intoCopy w) log = (.ok (some (log ++ [w])), log) := by
  rw [logged, h]
  rfl

theorem checkAssignable_ofLog (d : ResolvedDefinition) (log : List Write) (w : Write) :
    (ofLog d log).checkAssignable w.1 w.2 =
      match refusal d .intoCopy w with
      | some failure => .error failure
      | none => .ok () := by
  have hfields : (ofLog d log).definition = d := rfl
  unfold checkAssignable field refusal
  rw [hfields]
  cases hfield : d.fields.find? w.1 with
  | none => rfl
  | some f =>
    by_cases hnull : w.2 = .null ∧ f.field.nullable = false
    · have hguard : (w.2.isNull && !f.field.nullable) = true := by
        rw [Bool.and_eq_true, Bool.not_eq_true', Document.isNull_iff]
        exact hnull
      simp only [if_pos hnull, bind, Except.bind, hguard]
      rfl
    · have hguard : ¬ (w.2.isNull && !f.field.nullable) = true := by
        rw [Bool.and_eq_true, Bool.not_eq_true', Document.isNull_iff]
        exact hnull
      have hmanner : ¬ (Manner.intoCopy = .inPlace ∧ d.definition.immutable = true) := by simp
      simp only [if_neg hnull, if_neg hmanner, bind, Except.bind, if_neg hguard]
      rfl

theorem ofLog_append (d : ResolvedDefinition) (log : List Write) (w : Write) :
    ofLog d (log ++ [w]) =
      { ofLog d log with values := (ofLog d log).values.insert (w.1, w.2) } := by
  rw [← values_ofLog_append]
  rfl

theorem replacing_ofLog (d : ResolvedDefinition) (log : List Write) (w : Write) :
    (ofLog d log).replacing w.1 w.2 =
      match refusal d .intoCopy w with
      | some failure => .error failure
      | none => .ok (ofLog d (log ++ [w])) := by
  rw [replacing, checkAssignable_ofLog, ofLog_append]
  cases refusal d .intoCopy w <;> rfl

theorem outcome_assign_ofLog (d : ResolvedDefinition) (log : List Write) (w : Write) :
    outcome (assign w.1 w.2) (ofLog d log) =
      match refusal d .inPlace w with
      | some failure => (.error failure, ofLog d log)
      | none => (.ok (), ofLog d (log ++ [w])) := by
  have hfields : (ofLog d log).definition = d := rfl
  rw [outcome_assign, checkAssignable_ofLog, refusal_inPlace, ofLog_append, hfields]
  cases refusal d .intoCopy w with
  | some failure => rfl
  | none => cases d.definition.immutable <;> rfl

/-- What a write does to a record it does to its log. -/
theorem outcome_written_ofLog (d : ResolvedDefinition) (manner : Manner) (w : Write)
    (log : List Write) :
    outcome (written manner w) (ofLog d log) =
      ((outcome (logged d manner w) log).1.map (Option.map (ofLog d)),
        ofLog d (outcome (logged d manner w) log).2) := by
  cases hrefusal : refusal d manner w with
  | some failure =>
    rw [outcome_logged_of_refused hrefusal]
    cases manner with
    | inPlace =>
      rw [outcome_written_inPlace, outcome_assign_ofLog, hrefusal]
      rfl
    | intoCopy =>
      rw [outcome_written_intoCopy, replacing_ofLog, hrefusal]
      rfl
  | none =>
    cases manner with
    | inPlace =>
      rw [outcome_logged_inPlace hrefusal, outcome_written_inPlace, outcome_assign_ofLog, hrefusal]
      rfl
    | intoCopy =>
      rw [outcome_logged_intoCopy hrefusal, outcome_written_intoCopy, replacing_ofLog, hrefusal]
      rfl

theorem set_ofLog (d : ResolvedDefinition) (log : List Write) (w : Write) :
    (ofLog d log).set w.1 w.2 =
      match refusal d .inPlace w with
      | some failure => .error failure
      | none => .ok (ofLog d (log ++ [w])) := by
  have hset : (ofLog d log).set w.1 w.2 =
      match outcome (assign w.1 w.2) (ofLog d log) with
      | (.ok _, changed) => .ok changed
      | (.error failure, _) => .error failure := rfl
  rw [hset, outcome_assign_ofLog]
  cases refusal d .inPlace w <;> rfl

/-- A call on one of the records made so far. -/
structure Call where
  manner : Manner
  /-- The place of the record among those made so far. -/
  receiver : Nat
  write : Write

/-- What comes of a call. -/
inductive Reply where
  | accepted
  | refused (failure : Failure)
  /-- There is no such record. -/
  | absent

section Runs

variable {α β : Type}

/-- What a write to one item gives and leaves. -/
abbrev Writing (α : Type) := Manner → Write → ExceptT Failure (StateM α) (Option α)

/-- The reply to a write. -/
def Reply.ofResult : Except Failure α → Reply
  | .ok _ => .accepted
  | .error failure => .refused failure

/-- The items after a write: the receiver as it was left, and the copy, if one was made, as a new
item at the end. -/
def Call.put (c : Call) (result : Except Failure (Option α)) (left : α) (items : List α) : List α :=
  items.set c.receiver left ++ (result.toOption.bind id).toList

/-- The items after a call, where `write` says what a write does to one item. -/
def Call.step (write : Writing α) (c : Call) (items : List α) : List α × Reply :=
  match items[c.receiver]? with
  | none => (items, .absent)
  | some a =>
    let after := outcome (write c.manner c.write) a
    (c.put after.1 after.2 items, .ofResult after.1)

/-- The items after a row of calls, and the replies to them. -/
def run (write : Writing α) : List Call → List α → List α × List Reply
  | [], items => (items, [])
  | c :: calls, items =>
    let after := c.step write items
    let rest := run write calls after.1
    (rest.1, after.2 :: rest.2)

/-- A write does to images what it does to the items. -/
def Writing.Agree (f : α → β) (write : Writing α) (write' : Writing β) : Prop :=
  ∀ manner w a, outcome (write' manner w) (f a) =
    ((outcome (write manner w) a).1.map (Option.map f), f (outcome (write manner w) a).2)

variable {write : Writing α} {write' : Writing β} {f : α → β}

theorem Call.map_put (c : Call) (f : α → β) (result : Except Failure (Option α)) (left : α)
    (items : List α) :
    (c.put result left items).map f = c.put (result.map (Option.map f)) (f left) (items.map f) := by
  unfold put
  rw [List.map_append, List.map_set]
  rcases result with _ | _ | b <;> rfl

theorem Reply.ofResult_map (g : α → β) (result : Except Failure α) :
    Reply.ofResult (result.map g) = .ofResult result := by
  cases result <;> rfl

/-- One step does the same to items and to their images, if a write does. -/
theorem Call.step_map (h : write.Agree f write') (c : Call) (items : List α) :
    c.step write' (items.map f) = ((c.step write items).1.map f, (c.step write items).2) := by
  unfold step
  rw [List.getElem?_map]
  cases items[c.receiver]? with
  | none => rfl
  | some a => simp only [Option.map_some, h c.manner, Reply.ofResult_map, c.map_put]

theorem run_map (h : write.Agree f write') (calls : List Call) (items : List α) :
    run write' calls (items.map f) =
      ((run write calls items).1.map f, (run write calls items).2) := by
  induction calls generalizing items with
  | nil => rfl
  | cons c calls ih => simp only [run, c.step_map h, ih]

/-- A call either finds no receiver or does to it what the write does. -/
theorem Call.step_cases (write : Writing α) (c : Call) (items : List α) :
    c.step write items = (items, .absent) ∨
      ∃ a, items[c.receiver]? = some a ∧ c.step write items =
        (c.put (outcome (write c.manner c.write) a).1 (outcome (write c.manner c.write) a).2 items,
          .ofResult (outcome (write c.manner c.write) a).1) := by
  unfold step
  cases items[c.receiver]? with
  | none => exact .inl rfl
  | some a => exact .inr ⟨a, rfl, rfl⟩

theorem set_getElem?_self {items : List α} {place : Nat} {a : α} (h : items[place]? = some a) :
    items.set place a = items := by
  obtain ⟨hplace, rfl⟩ := List.getElem?_eq_some_iff.mp h
  exact List.set_getElem_self hplace

/-- A call changes no item but its receiver. -/
theorem Call.getElem?_step (c : Call) {items : List α} {place : Nat} (hplace : place < items.length)
    (h : place ≠ c.receiver) : (c.step write items).1[place]? = items[place]? := by
  rcases c.step_cases write items with hstep | ⟨a, -, hstep⟩
  · rw [hstep]
  · rw [hstep]
    unfold put
    rw [List.getElem?_append_left (by rwa [List.length_set]), List.getElem?_set_ne h.symm]

end Runs

/-- A call that is not accepted leaves all records as they are. -/
theorem Call.step_written_of_refused {c : Call} {records : List Record}
    (h : (c.step written records).2 ≠ .accepted) : (c.step written records).1 = records := by
  rcases c.step_cases written records with hstep | ⟨r, hr, hstep⟩
  · rw [hstep]
  · rw [hstep] at h ⊢
    cases hresult : (outcome (written c.manner c.write) r).1 with
    | ok made =>
      rw [hresult] at h
      exact absurd rfl h
    | error failure =>
      rw [put, snd_outcome_written_of_error hresult, set_getElem?_self hr]
      exact List.append_nil records

/-- A call that writes into a copy leaves its receiver as it is. -/
theorem Call.getElem?_step_written_of_intoCopy {c : Call} {records : List Record}
    (hmanner : c.manner = .intoCopy) {place : Nat} (hplace : place < records.length) :
    (c.step written records).1[place]? = records[place]? := by
  rcases c.step_cases written records with hstep | ⟨r, hr, hstep⟩
  · rw [hstep]
  · rw [hstep, hmanner, outcome_written_intoCopy, put, set_getElem?_self hr,
      List.getElem?_append_left hplace]

/-! ## Records show their logs -/

/-- The records of a run are those of the logs that the run leaves. -/
theorem run_written_eq (d : ResolvedDefinition) (calls : List Call) :
    run written calls [new d] =
      ((run (logged d) calls [[]]).1.map (ofLog d), (run (logged d) calls [[]]).2) := by
  rw [← ofLog_nil d]
  exact run_map (outcome_written_ofLog d) calls [[]]

theorem ofResult_logged (d : ResolvedDefinition) (manner : Manner) (w : Write) (log : List Write) :
    Reply.ofResult (outcome (logged d manner w) log).1 =
      match refusal d manner w with
      | some failure => .refused failure
      | none => .accepted := by
  cases hrefusal : refusal d manner w with
  | some failure =>
    rw [outcome_logged_of_refused hrefusal]
    rfl
  | none =>
    cases manner with
    | inPlace =>
      rw [outcome_logged_inPlace hrefusal]
      rfl
    | intoCopy =>
      rw [outcome_logged_intoCopy hrefusal]
      rfl

theorem reply_step (d : ResolvedDefinition) (c : Call) {logs : List (List Write)}
    (hreceiver : c.receiver < logs.length) :
    (c.step written (logs.map (ofLog d))).2 =
      match refusal d c.manner c.write with
      | some failure => .refused failure
      | none => .accepted := by
  rw [c.step_map (outcome_written_ofLog d)]
  unfold Call.step
  rw [List.getElem?_eq_getElem hreceiver]
  exact ofResult_logged d c.manner c.write _

/-- What can be seen of a record is what its log says. -/
structure Shows (d : ResolvedDefinition) (log : List Write) (r : Record) : Prop where
  /-- The declared defaults, overwritten by the writes in order. -/
  content : r = ofLog d log
  held : ∀ name, r.values.find? name = (lastValue d log name).map (name, ·)
  get : ∀ name, r.get name =
    if d.fields.contains name then .ok (lastValue d log name) else .error (.unknownField d.name name)
  /-- A value that is put in is the last one of the log. -/
  set : ∀ w, r.set w.1 w.2 =
    match refusal d .inPlace w with
    | some failure => .error failure
    | none => .ok (ofLog d (log ++ [w]))
  /-- The fields with a value, in flattened order. -/
  toDocument : r.toDocument =
    .object (d.fields.names.filterMap fun name => (lastValue d log name).map (name, ·))
  /-- The required fields that the document does not have, in flattened order. -/
  missingRequired : ∃ members, r.toDocument = .object members ∧
    r.missingRequired =
      (namesOf (d.fields.toList.filter (·.field.required))).filter (· ∉ namesOf members)

theorem mem_namesOf_held {names : List String} {value : String → Option Document} :
    name ∈ namesOf (names.filterMap fun n => (value n).map (n, ·)) ↔
      name ∈ names ∧ (value name).isSome := by
  simp only [namesOf, List.mem_map, List.mem_filterMap, Option.map_eq_some_iff]
  constructor
  · rintro ⟨_, ⟨n, hn, v, hv, rfl⟩, rfl⟩
    exact ⟨hn, by rw [nameOf_pair, hv]; rfl⟩
  · rintro ⟨hn, hsome⟩
    obtain ⟨v, hv⟩ := Option.isSome_iff_exists.mp hsome
    exact ⟨(name, v), ⟨name, hn, v, hv, rfl⟩, rfl⟩

theorem shows_ofLog (d : ResolvedDefinition) (log : List Write) : Shows d log (ofLog d log) where
  content := rfl
  held := find?_ofLog d log
  get := get_ofLog d log
  set := set_ofLog d log
  toDocument := toDocument_ofLog d log
  missingRequired := by
    refine ⟨_, toDocument_ofLog d log, ?_⟩
    rw [missingRequired_ofLog]
    refine List.filter_congr fun name hname => ?_
    have hknown : name ∈ d.fields.names := by
      obtain ⟨f, hf, rfl⟩ := List.mem_map.mp hname
      exact List.mem_map_of_mem (List.mem_of_mem_filter hf)
    rw [Bool.eq_iff_iff, decide_eq_true_iff, mem_namesOf_held, ← Option.not_isSome,
      Bool.not_eq_true']
    simp [hknown]

/-- Only the last value of each field counts. -/
theorem toDocument_congr {log log' : List Write} (h : lastWrite log = lastWrite log') :
    (ofLog d log).toDocument = (ofLog d log').toDocument := by
  simp only [toDocument_ofLog, lastValue, h]

/-- Every record that a run makes shows its log, to which the accepted writes were added in order,
and a log shows no more than the last value of each field. Every reply to a call follows from the
definition and the call; a call that is refused changes nothing, and one that writes into a copy
leaves the record as it is. -/
theorem records_show_logs (d : ResolvedDefinition) (calls : List Call) :
    let records := (run written calls [new d]).1
    let logs := (run (logged d) calls [[]]).1
    List.Forall₂ (Shows d) logs records ∧
      (run written calls [new d]).2 = (run (logged d) calls [[]]).2 ∧
      (∀ c : Call, c.receiver < records.length →
        (c.step written records).2 =
          match refusal d c.manner c.write with
          | some failure => .refused failure
          | none => .accepted) ∧
      (∀ c : Call, (c.step written records).2 ≠ .accepted → (c.step written records).1 = records) ∧
      (∀ (c : Call) (place : Nat), place < records.length →
        c.manner = .intoCopy ∨ place ≠ c.receiver →
        (c.step written records).1[place]? = records[place]?) ∧
      ∀ log log', lastWrite log = lastWrite log' →
        ∀ r r', Shows d log r → Shows d log' r' → r.toDocument = r'.toDocument := by
  intro records logs
  have hrecords : records = logs.map (ofLog d) := congrArg Prod.fst (run_written_eq d calls)
  refine ⟨?_, congrArg Prod.snd (run_written_eq d calls), fun c hreceiver => ?_,
    fun c => Call.step_written_of_refused, fun c place hplace hcases => ?_, ?_⟩
  · rw [hrecords, List.forall₂_map_right_iff, List.forall₂_same]
    exact fun log _ => shows_ofLog d log
  · rw [hrecords] at hreceiver ⊢
    exact reply_step d c (by rwa [List.length_map] at hreceiver)
  · rcases hcases with hcopy | hother
    · exact Call.getElem?_step_written_of_intoCopy hcopy hplace
    · exact c.getElem?_step hplace hother
  · intro log log' hlast r r' hr hr'
    rw [hr.content, hr'.content]
    exact toDocument_congr hlast

end Record

end RecordDefinitions
