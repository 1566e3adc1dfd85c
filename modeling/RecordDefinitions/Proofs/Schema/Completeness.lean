import RecordDefinitions.Proofs.Schema.Settled

/-!
# Imports are complete

A conversion that succeeds settles the names that are reserved on its way, by induction on its
bound. So does an import, entry by entry. Since nothing is defined when an import starts, the
definitions at its end are the finished translations of the schemas that it has reserved names
for, and the types of their fields name nothing else.
-/

namespace RecordDefinitions

namespace Schema

open Relation Progress

variable {s : Setting} {t u w : Progress} {i : Nat × Nat} {trail : Trail} {schema : Document}
  {context : ReferenceContext} {v : Reservation}

/-! ## Records -/

/-- The conversion of the schema of a property. -/
def Call.ofProperty (trail : Trail) (p : String × Property) : Call :=
  ⟨trail, p.2.schema, Naming.pascal p.1, p.2.context⟩

theorem exists_run_of_namedField {comp : Composition} {p : String × Property}
    {f : String × FieldDeclaration}
    (h : outcome (namedField (fieldWithin s i) trail comp p) t = (.ok f, u)) :
    ∃ a, outcome ((Call.ofProperty trail p).run s i) t = (.ok a, u) ∧
      f.1 = p.1 ∧ f.2.type = a.1.text := by
  obtain ⟨field, w, hconvert, hlast⟩ := outcome_bind_eq_ok_iff.mp h
  cases hlast
  obtain ⟨a, w, hrun, hlast⟩ := outcome_bind_eq_ok_iff.mp hconvert
  cases hlast
  exact ⟨a, hrun, rfl, rfl⟩

/-- The fields of properties have their names. -/
theorem namesOf_of_namedFields {comp : Composition} {ps : List (String × Property)}
    {fields : List (String × FieldDeclaration)}
    (h : outcome (ps.mapM (namedField (fieldWithin s i) trail comp)) t = (.ok fields, u)) :
    namesOf fields = namesOf ps := by
  induction ps generalizing t fields with
  | nil =>
    cases h
    rfl
  | cons p ps ih =>
    rw [List.mapM_cons] at h
    obtain ⟨f, w, hfield, hrest⟩ := outcome_bind_eq_ok_iff.mp h
    obtain ⟨rest, w', hrest, hlast⟩ := outcome_bind_eq_ok_iff.mp hrest
    cases hlast
    obtain ⟨-, -, hname, -⟩ := exists_run_of_namedField hfield
    exact congrArg₂ List.cons hname (ih hrest)

theorem reservedInRecord_iff {depth : Nat} {comp : Composition}
    (hcomp : outcome (compose s depth trail schema context .empty) t = (.ok comp, u)) :
    ReservedInRecord s trail schema context t v ↔ ∃ p w,
      ComesTo (fun i => namedField (fieldWithin s i) trail comp) comp.properties.toList u p w ∧
        ReservedUnder s (Call.ofProperty trail p, w) v := by
  constructor
  · rintro ⟨n, hasks, hv⟩
    cases hasks with
    | @property u' w depth' comp' before after p j fields hcomp' hprops hbefore =>
      obtain ⟨rfl, rfl⟩ := ok_unique (x := fun d => compose s d trail schema context .empty)
        (fun hle => compose_mono hle trail schema context .empty) hcomp hcomp'
      exact ⟨p, w, ⟨before, after, j, fields, hprops, hbefore⟩, hv⟩
  · rintro ⟨p, w, ⟨before, after, j, fields, hprops, hbefore⟩, hv⟩
    exact ⟨_, .property hcomp hprops hbefore, hv⟩

section Runs

variable {b d : Nat}

/-- Under some bounds every conversion settles the names that are reserved in it and in those
that it leads to. -/
def RunsSettle (s : Setting) (i : Nat × Nat) : Prop :=
  ∀ {c : Call} {t u : Progress} {a : TypeExpr × Bool}, t.Sound s.options s.resolver.loader →
    outcome (c.run s i) t = (.ok a, u) → Settles s (ReservedUnder s (c, t)) t u

theorem settles_namedFields (hruns : RunsSettle s (b, d)) {comp : Composition}
    {ps : List (String × Property)} {fields : List (String × FieldDeclaration)}
    (ht : t.Sound s.options s.resolver.loader)
    (h : outcome (ps.mapM (namedField (fieldWithin s (b, d)) trail comp)) t = (.ok fields, u)) :
    Settles s (fun v => ∃ p w,
      ComesTo (fun i => namedField (fieldWithin s i) trail comp) ps t p w ∧
        ReservedUnder s (Call.ofProperty trail p, w) v) t u := by
  refine settles_mapM (f := fun i => namedField (fieldWithin s i) trail comp)
    (fun hle p => namedField_approximates hle trail comp p)
    (fun p => moves_namedField (b, d) trail comp p) ?_ ht h
  intro p _ t f u ht hfield
  obtain ⟨a, hrun, -⟩ := exists_run_of_namedField hfield
  exact hruns ht hrun

theorem among_of_namedFields {comp : Composition} {ps : List (String × Property)}
    {fields : List (String × FieldDeclaration)} (ht : t.Sound s.options s.resolver.loader)
    (h : outcome (ps.mapM (namedField (fieldWithin s i) trail comp)) t = (.ok fields, u)) :
    ∀ f ∈ fields, ∃ type : TypeExpr, f.2.type = type.text ∧
      type.Among s.options u.usedNames := by
  refine forall_of_mapM (P := fun names f => ∃ type : TypeExpr, f.2.type = type.text ∧
    type.Among s.options names) ?_ (fun p => moves_namedField i trail comp p) ?_ ht h
  · rintro names names' f hsub ⟨type, htext, htype⟩
    exact ⟨type, htext, htype.mono hsub⟩
  · intro p _ t f u ht hfield
    obtain ⟨a, hrun, -, htext⟩ := exists_run_of_namedField hfield
    exact ⟨a.1, htext, among_of_run ht hrun⟩

/-- A record settles what is reserved in it, and its declaration has a field for each property
that is collected. -/
theorem settles_record (hruns : RunsSettle s (b, d)) {decl : Declaration}
    (ht : t.Sound s.options s.resolver.loader)
    (h : outcome (recordWithin s (b, d) trail schema context) t = (.ok decl, w)) :
    Settles s (ReservedInRecord s trail schema context t) t w ∧ decl.Among s.options w.usedNames ∧
      ∃ depth comp, composed s.resolver depth trail schema context .empty = .ok comp ∧
        decl.fields.names = comp.properties.names := by
  rw [recordWithin_eq] at h
  obtain ⟨comp, t', hcomp, hrest⟩ := outcome_bind_eq_ok_iff.mp h
  obtain ⟨fields, w', hfields, hlast⟩ := outcome_bind_eq_ok_iff.mp hrest
  cases hlast
  -- Putting the parts together has only read documents.
  obtain ⟨m, hm, hsearch⟩ := searches_compose (s := s) b trail schema context .empty t ht.valid
  have hcomposed : composed s.resolver b trail schema context .empty = .ok comp :=
    congrArg Prod.fst (hsearch.symm.trans hcomp)
  have hlater : t' = { t with lookup := m } := congrArg Prod.snd (hcomp.symm.trans hsearch)
  have ht' : t'.Sound s.options s.resolver.loader :=
    ((moves_compose b trail schema context .empty).steps ht.valid hcomp).sound ht
  -- No two properties have one name, so every field is kept.
  have hnames := namesOf_of_namedFields hfields
  have hlist : (Catalogue.ofList fields).toList = fields :=
    Catalogue.toList_ofList (hnames ▸ comp.properties.nodup)
  refine ⟨?_, ?_, b, comp, hcomposed, ?_⟩
  · have hsettles := settles_namedFields hruns ht' hfields
    apply (hsettles.congr fun v => reservedInRecord_iff hcomp).of_later
    · rw [hlater]
    · rw [hlater]
  · intro f hf
    rw [hlist] at hf
    exact among_of_namedFields ht' hfields f hf
  · rw [Catalogue.names, hlist]
    exact hnames

/-- A name that is reserved is settled with the record that it is reserved for. -/
theorem settles_reserved (hruns : RunsSettle s (b, d)) {decl : Declaration}
    (ht : t.Sound s.options s.resolver.loader) (hv : v.Extends s t)
    (h : outcome (recordWithin s (b, d) v.trail v.schema v.context) v.progress = (.ok decl, w)) :
    Settles s
      (fun v' => v' = v ∨ ReservedInRecord s v.trail v.schema v.context v.progress v') t
      { w with definitions := w.definitions.insert (v.name, decl) } := by
  obtain ⟨hsettles, hamong, hproperties⟩ := settles_record hruns (hv.steps.sound ht) h
  exact hsettles.define hv ⟨⟨(b, d), w, h⟩, hproperties⟩ hamong

theorem settles_piece (hruns : RunsSettle s (b, d)) {c : Call} {p : Piece} {a : TypeExpr × Bool}
    (ht : t.Sound s.options s.resolver.loader)
    (h : outcome (p.convert (fieldWithin s (b, d)) c.trail c.hint c.context) t = (.ok a, u)) :
    Settles s (fun v => ReservedInPiece s c t v p) t u := by
  cases p with
  | known type =>
    cases h
    exact .of_eq (fun _ h => h) rfl rfl
  | strange warning =>
    cases h
    exact .of_eq (fun _ h => h) rfl rfl
  | inner schema rename wrap =>
    obtain ⟨a, w, hinner, hlast⟩ := outcome_bind_eq_ok_iff.mp h
    cases hlast
    exact hruns (c := ⟨c.trail, schema, rename c.hint, c.context⟩) ht hinner

/-- A conversion that succeeds settles the names that are reserved in it and in those that it
leads to, in whichever of the four ways it succeeds. -/
theorem settles_run (b d : Nat) : RunsSettle s (b, d) := by
  induction d with
  | zero =>
    intro c t u a _ h
    exact absurd fails_run_zero (not_fails_of_ok h)
  | succ d ih =>
    intro c t u a ht h
    have hsucceeds := succeeds_of_run ht.valid h
    generalize a.1 = type at hsucceeds
    cases hsucceeds with
    | @pieces ps whole types _ hform hpieces =>
      have hsettles : Settles s _ t u := settles_mapM
        (f := fun i => Piece.convert (fieldWithin s i) c.trail c.hint c.context)
        (fun hle p => piece_approximates hle c.trail c.hint c.context p)
        (fun p => moves_piece (b, d) c.trail c.hint c.context p)
        (fun p _ t a u ht hpiece => settles_piece ih ht hpiece) ht hpieces
      exact hsettles.congr fun v => reservedUnder_pieces_iff hform
    | reserved hreserves hrecord =>
      have hsettles := settles_reserved ih ht (hreserves.extends ht.valid) hrecord
      exact hsettles.congr fun v => reservedUnder_reserves_iff hreserves
    | known hform htarget hrecord hknown =>
      obtain ⟨m, -, rfl⟩ := exists_lookup_of_target ht.valid htarget
      exact .of_eq (fun v => not_reservedUnder_known hform htarget hrecord hknown) rfl rfl
    | inPlace hform htarget hrecord henter hinner =>
      have hw := ((moves_target _ _).steps ht.valid htarget).sound ht
      have hsettles := (ih hw hinner).congr fun v =>
        reservedUnder_inPlace_iff (v := v) hform htarget hrecord henter
      obtain ⟨m, -, rfl⟩ := exists_lookup_of_target ht.valid htarget
      exact hsettles.of_later rfl rfl

end Runs

/-! ## Imports -/

/-- A name is reserved when an import comes to an entry. -/
def ReservedForEntry (s : Setting) (e : Entry) (t : Progress) (v : Reservation) : Prop :=
  t.named.lookup (targetKey e.target) = none ∧
    (v = .ofTarget s.options [] e.target e.base t ∨
      ReservedInRecord s [] e.target.schema e.target.context (e.naming s t) v)

variable {es : List Entry}

theorem reserved_iff :
    Reserved s es v ↔
      ∃ e t, ComesTo (convertEntry s) es .empty e t ∧ ReservedForEntry s e t v := by
  constructor
  · intro h
    cases h with
    | entry hbegins =>
      cases hbegins with
      | @entry before after _ i names _ hlist hbefore hnew =>
        exact ⟨_, _, ⟨before, after, i, names, hlist, hbefore⟩, hnew, Or.inl rfl⟩
    | @reached m v hreached hv =>
      obtain ⟨n, hopens, hstarts⟩ := hreached
      cases hopens with
      | property hbegins hasks =>
        cases hbegins with
        | @entry before after _ i names _ hlist hbefore hnew =>
          exact ⟨_, _, ⟨before, after, i, names, hlist, hbefore⟩, hnew,
            Or.inr ⟨n, hasks, m, hstarts, hv⟩⟩
  · rintro ⟨e, t, ⟨before, after, i, names, hlist, hbefore⟩, hnew, hv⟩
    have hbegins : Begins s es e t := .entry hlist hbefore hnew
    rcases hv with rfl | ⟨n, hasks, m, hstarts, hv⟩
    · exact .entry hbegins
    · exact .reached ⟨n, .property hbegins hasks, hstarts⟩ hv

section Entries

variable {b d : Nat}

theorem settles_entry {e : Entry} {name : String} (ht : t.Sound s.options s.resolver.loader)
    (h : outcome (convertEntry s (b, d) e) t = (.ok name, u)) :
    Settles s (ReservedForEntry s e t) t u := by
  unfold convertEntry at h
  rw [outcome_defineOnce] at h
  cases hknown : t.named.lookup (targetKey e.target) with
  | some known =>
    rw [hknown] at h
    cases h
    refine .of_eq ?_ rfl rfl
    rintro v ⟨hnew, -⟩
    cases hknown.symm.trans hnew
  | none =>
    rw [hknown] at h
    obtain ⟨decl, w, hrecord, -, rfl⟩ := outcome_define_ok_iff (i := (b, d)).mp h
    have hextends := extends_ofTarget (s := s) [] e.base hknown
    have hsettles := settles_reserved (settles_run b d) ht hextends hrecord
    refine hsettles.congr fun v => ?_
    unfold ReservedForEntry
    rw [hknown]
    exact and_iff_right rfl

/-- An import settles all names that are reserved in it. -/
theorem settles_convertAll (h : outcome (convertAll s (b, d) es) .empty = (.ok ⟨⟩, u)) :
    Settles s (Reserved s es) .empty u ∧ u.Sound s.options s.resolver.loader := by
  obtain ⟨names, w, hentries, hlast⟩ := outcome_bind_eq_ok_iff.mp h
  cases hlast
  have hmoves (e : Entry) := moves_convertEntry (s := s) (b, d) e
  have hempty : Progress.empty.Sound s.options s.resolver.loader := sound_empty
  have hsteps := (Moves.mapM fun e (_ : e ∈ es) => hmoves e).steps hempty.valid hentries
  have hsettles : Settles s _ .empty u := settles_mapM
    (S := fun e t => ReservedForEntry s e t)
    (fun hle e => convertEntry_approximates hle e) hmoves
    (fun e _ t name u ht he => settles_entry ht he) hempty hentries
  exact ⟨hsettles.congr fun v => reserved_iff, hsteps.sound hempty⟩

end Entries

end Schema

namespace Import

open Schema

/-- The type of every field is read as it is written, and names only what is defined. Every
name belongs to one schema that it was reserved for, and its definition is what this schema is
translated to. -/
structure Complete (s : Setting) (es : List Entry) (declarations : Declarations) : Prop where
  closed : ∀ p ∈ declarations.toList, ∀ f ∈ p.2.fields.toList, ∃ type,
    TypeExpr.read f.2.type = .ok type ∧ type.text = f.2.type ∧
      ∀ name ∈ type.references, declarations.contains name
  reserved : ∀ name ∈ declarations.names, ∃! v, Reserved s es v ∧ v.name = name
  finished : ∀ v, Reserved s es v →
    ∃ d, declarations.find? v.name = some (v.name, d) ∧ Finished s v d

variable {o : ImportOptions} {loader : Loader} {base : Path} {context : ReferenceContext}
  {bound : Nat} {r : ImportResult}

/-- At the end of a successful import all names are settled. -/
theorem exists_settles_of_result (hschema : o.kind.getD (.ofDocument context.document) ≠ .data)
    (h : (runWithin bound o loader base context).result = .ok r) :
    ∃ t : Progress, Settles (setting o loader base) (Reserved (setting o loader base)
      (entriesOf o context)) .empty t ∧ t.Sound o loader ∧ r.definitions = t.definitions := by
  obtain ⟨t, hall, rfl⟩ := exists_convertAll_of_result rfl hschema h
  obtain ⟨hsettles, hsound⟩ := settles_convertAll (s := setting o loader base) hall
  exact ⟨t, hsettles, hsound, rfl⟩

/-- Every definition that is there in the end is the finished translation of a schema that its
name was reserved for, and its fields name only what is defined. -/
theorem exists_reserved_of_mem (hschema : o.kind.getD (.ofDocument context.document) ≠ .data)
    (h : (runWithin bound o loader base context).result = .ok r)
    {p : String × Declaration} (hp : p ∈ r.definitions.toList) :
    ∃ v, Reserved (setting o loader base) (entriesOf o context) v ∧ v.name = p.1 ∧
      Finished (setting o loader base) v p.2 ∧ IsGiven o p.1 ∧
      p.2.Among o r.definitions.names := by
  obtain ⟨t, hsettles, hsound, hr⟩ := exists_settles_of_result hschema h
  rw [hr] at hp ⊢
  have hname : p.1 ∈ t.definitions.names := List.mem_map_of_mem (f := nameOf) hp
  rcases hsettles.covered p.1 hname with hnone | ⟨v, hv, hsame⟩
  · cases hnone
  · obtain ⟨d, hd, hfinished, hamong⟩ := hsettles.finished v hv
    have hfind : t.definitions.find? p.1 = some p := Catalogue.find?_of_mem hp
    rw [← hsame, hd] at hfind
    cases Option.some.inj hfind
    exact ⟨v, hv, rfl, hfinished, hsound.given _ (hsettles.used v hv),
      hamong.mono hsound.orderly.defined⟩

/-- Every name that is reserved has its definition in the end, and no other schema has it. -/
theorem defined_of_reserved (hschema : o.kind.getD (.ofDocument context.document) ≠ .data)
    (h : (runWithin bound o loader base context).result = .ok r) {v : Reservation}
    (hv : Reserved (setting o loader base) (entriesOf o context) v) :
    (∃ d, r.definitions.find? v.name = some (v.name, d) ∧ Finished (setting o loader base) v d) ∧
      ∀ v', Reserved (setting o loader base) (entriesOf o context) v' → v'.name = v.name →
        v' = v := by
  obtain ⟨t, hsettles, -, hr⟩ := exists_settles_of_result hschema h
  obtain ⟨d, hd, hfinished, -⟩ := hsettles.finished v hv
  exact ⟨⟨d, hr ▸ hd, hfinished⟩, fun v' hv' => hsettles.unique v' v hv' hv⟩

/-- What an import of schemas under a plain namespace gives is complete. -/
theorem complete_of_result (ho : o.HasPlainNamespace)
    (hschema : o.kind.getD (.ofDocument context.document) ≠ .data)
    (h : (runWithin bound o loader base context).result = .ok r) :
    Complete (setting o loader base) (entriesOf o context) r.definitions := by
  refine ⟨?_, ?_, fun v hv => (defined_of_reserved hschema h hv).1⟩
  · intro p hp f hf
    obtain ⟨-, -, -, -, -, hamong⟩ := exists_reserved_of_mem hschema h hp
    obtain ⟨type, htext, htype⟩ := hamong f hf
    rw [htext]
    exact ⟨type, (htype.readable ho).read_text, rfl, fun name hname =>
      Catalogue.contains_iff.mpr (htype.references hname)⟩
  · intro name hname
    obtain ⟨p, hp, rfl⟩ := List.mem_map.mp hname
    obtain ⟨v, hv, hsame, -⟩ := exists_reserved_of_mem hschema h hp
    refine ⟨v, ⟨hv, hsame⟩, ?_⟩
    rintro v' ⟨hv', hsame'⟩
    exact (defined_of_reserved hschema h hv).2 v' hv' (hsame'.trans hsame.symm)

def nodeOptions : ImportOptions := { ImportOptions.usual with namespaceName := some "Text.Tree" }

/-- A schema of nodes with a list of nodes, and with a record inside. -/
def nodeSchema : Document :=
  .object [("title", .string "node"), ("type", .string "object"),
    ("properties", .object [
      ("label", .object [("type", .string "string")]),
      ("children", .object [("type", .string "array"), ("items", .object [("$ref", .string "#")])]),
      ("place", .object [("type", .array [.string "object", .string "null"]),
        ("properties", .object [("line", .object [("type", .string "integer")])])])])]

theorem result_nodeSchema :
    ∃ r, (runWithin 8 nodeOptions (.ofList []) .here ⟨nodeSchema, none⟩).result = .ok r ∧
      r.definitions.toList.map (fun p => (p.1, p.2.fields.toList.map fun f => (f.1, f.2.type))) =
        [("Text.Tree.Node", [("label", "string"), ("children", "Text.Tree.Node[]"),
          ("place", "Text.Tree.Place")]), ("Text.Tree.Place", [("line", "int")])] :=
  exists_ok_of_decide (by decide +kernel)

theorem complete_of_result_nodeSchema :
    nodeOptions.HasPlainNamespace ∧
      nodeOptions.kind.getD (.ofDocument nodeSchema) ≠ .data ∧
      ∃ r, (runWithin 8 nodeOptions (.ofList []) .here ⟨nodeSchema, none⟩).result = .ok r ∧
        r.definitions.names = ["Text.Tree.Node", "Text.Tree.Place"] ∧
        Complete (setting nodeOptions (.ofList []) .here)
          (entriesOf nodeOptions ⟨nodeSchema, none⟩) r.definitions := by
  have hplain : nodeOptions.HasPlainNamespace := by
    rintro n ⟨⟩
    exact Or.inr (by decide)
  have hschema : nodeOptions.kind.getD (.ofDocument nodeSchema) ≠ .data := by decide +kernel
  obtain ⟨r, hr, hlist⟩ := result_nodeSchema
  refine ⟨hplain, hschema, r, hr, ?_, complete_of_result hplain hschema hr⟩
  have hnames := congrArg (List.map Prod.fst) hlist
  rw [List.map_map] at hnames
  exact hnames

end Import

end RecordDefinitions
