import RecordDefinitions.Proofs.Schema.Success

/-!
# The names of definitions

A record target gets a name when it is met first, and the same name whenever it is met
again. What is taken for the same target is told by its key. No other target gets the
name, since a name is new when it is given.
-/

namespace RecordDefinitions

namespace Catalogue

variable {α : Type} [Named α]

theorem mem_names_insert_iff {c : Catalogue α} {item : α} {name : String} :
    name ∈ (c.insert item).names ↔ name = nameOf item ∨ name ∈ c.names := by
  rw [names_insert]
  split
  · rename_i hmem
    constructor
    · exact Or.inr
    · rintro (rfl | h)
      · exact hmem
      · exact h
  · rw [List.mem_append, List.mem_singleton]
    exact or_comm

end Catalogue

namespace Schema

open Relation

/-- The names of targets are in use, no two targets have one name, and there is a
definition under every name. -/
structure Progress.Orderly (t : Progress) : Prop where
  used : ∀ key name, t.named.lookup key = some name → name ∈ t.usedNames
  distinct : ∀ key key' name, t.named.lookup key = some name → t.named.lookup key' = some name →
    key = key'
  defined : ∀ name ∈ t.usedNames, name ∈ t.definitions.names

/-- The place of an entry. -/
def Entry.place (e : Entry) : Place := ⟨e.target.context.file.map (·.path.normalize), some e.way⟩

/-- An import comes to a record target at some place: to an entry, or to the target of a
reference that is a field. -/
inductive Met (s : Setting) (es : List Entry) : ReferenceTarget → Place → Prop
  | entry {e : Entry} : e ∈ es → Met s es e.target e.place
  | reference {m : Call × Progress} {r : String} {x : ReferenceTarget} :
    Reached s es m → form m.1.schema = .reference r →
    targetOf s.resolver r m.1.context = .ok x → isRecord x.schema → Met s es x x.place

/-- An import gives a name to a record target that it comes to. -/
inductive Names (s : Setting) (es : List Entry) : ReferenceTarget → Place → String → Prop
  | entry {before after : List Entry} {e : Entry} {i : Nat × Nat} {names : List String}
    {name : String} {t u : Progress} :
    es = before ++ e :: after →
    outcome (before.mapM (convertEntry s i)) .empty = (.ok names, t) →
    outcome (convertEntry s i e) t = (.ok name, u) → Names s es e.target e.place name
  | reference {c : Call} {t u : Progress} {r name : String} {x : ReferenceTarget}
    {i : Nat × Nat} {nullable : Bool} :
    Reached s es (c, t) → form c.schema = .reference r →
    targetOf s.resolver r c.context = .ok x → isRecord x.schema →
    outcome (c.run s i) t = (.ok (.definition name, nullable), u) → Names s es x x.place name

variable {s : Setting} {es : List Entry} {t u : Progress} {o : ImportOptions} {loader : Loader}
  {x y : ReferenceTarget} {p q : Place} {n m : String} {i : Nat × Nat}

/-! ## Names are given once -/

theorem Progress.orderly_empty : Progress.empty.Orderly where
  used := fun key name h => by cases h
  distinct := fun key key' name h => by cases h
  defined := fun name h => by cases h

theorem Progress.freeName_not_mem (t : Progress) (o : ImportOptions) (base : String) :
    t.freeName o base ∉ t.usedNames :=
  Naming.uniqueName_not_mem _ _

theorem Progress.Orderly.reserving (h : t.Orderly) (base : String) :
    (t.reserving o base).Orderly where
  used := fun key name hname => List.mem_cons_of_mem _ (h.used key name hname)
  distinct := h.distinct
  defined := by
    intro name hname
    refine Catalogue.mem_names_insert_iff.mpr ?_
    rcases List.mem_cons.mp hname with rfl | hname
    · exact Or.inl rfl
    · exact Or.inr (h.defined name hname)

theorem Progress.Orderly.naming (h : t.Orderly) (key : TargetKey) (base : String) :
    (t.naming o key base).Orderly := by
  have hlookup (other : TargetKey) (name : String)
      (hname : (t.naming o key base).named.lookup other = some name) :
      (other = key ∧ name = t.freeName o base) ∨ t.named.lookup other = some name := by
    change List.lookup other ((key, t.freeName o base) :: t.named) = some name at hname
    rw [List.lookup_cons] at hname
    by_cases hother : other = key
    · rw [beq_iff_eq.mpr hother] at hname
      exact Or.inl ⟨hother, (Option.some.inj hname).symm⟩
    · rw [beq_eq_false_iff_ne.mpr hother] at hname
      exact Or.inr hname
  have hfresh := t.freeName_not_mem o base
  refine ⟨fun other name hname => ?_, fun other other' name hname hname' => ?_,
    (h.reserving base).defined⟩
  · rcases hlookup other name hname with ⟨-, rfl⟩ | hold
    · exact List.mem_cons_self
    · exact List.mem_cons_of_mem _ (h.used other name hold)
  · rcases hlookup other name hname with ⟨rfl, rfl⟩ | hold
    · rcases hlookup other' _ hname' with ⟨rfl, -⟩ | hold'
      · rfl
      · exact absurd (h.used _ _ hold') hfresh
    · rcases hlookup other' name hname' with ⟨rfl, rfl⟩ | hold'
      · exact absurd (h.used _ _ hold) hfresh
      · exact h.distinct _ _ name hold hold'

theorem Progress.Step.orderly (h : Progress.Step o loader t u) (ht : t.Orderly) : u.Orderly := by
  cases h with
  | read _ => exact ⟨ht.used, ht.distinct, ht.defined⟩
  | warned _ => exact ⟨ht.used, ht.distinct, ht.defined⟩
  | reserved base => exact ht.reserving base
  | named base _ => exact ht.naming _ base
  | defined d _ =>
    exact ⟨ht.used, ht.distinct, fun name hname =>
      Catalogue.mem_names_insert_iff.mpr (Or.inr (ht.defined name hname))⟩

theorem Progress.Steps.orderly (h : Progress.Steps o loader t u) (ht : t.Orderly) : u.Orderly := by
  induction h with
  | refl => exact ht
  | tail _ hstep ih => exact hstep.orderly ih

theorem orderly_of_convertAll (h : outcome (convertAll s i es) .empty = (.ok ⟨⟩, u)) :
    u.Orderly := by
  have hmoves : Moves s.options s.resolver.loader (convertAll s i es) :=
    (Moves.mapM fun e _ => moves_convertEntry i e).bind fun _ => .pure _
  exact (hmoves.steps (LookupMemory.valid_empty _) h).orderly Progress.orderly_empty

/-! ## Names are kept -/

/-- A reference to a record has the type of its definition. -/
theorem exists_lookup_of_run {c : Call} {r : String} {a : TypeExpr × Bool}
    (ht : t.lookup.Valid s.resolver.loader) (hform : form c.schema = .reference r)
    (hx : targetOf s.resolver r c.context = .ok x) (hrecord : isRecord x.schema)
    (h : outcome (c.run s i) t = (.ok a, u)) :
    ∃ n, a.1 = .definition n ∧ u.named.lookup (targetKey x) = some n := by
  obtain ⟨b, d⟩ := i
  cases d with
  | zero => exact absurd fails_run_zero (not_fails_of_ok h)
  | succ d =>
    obtain ⟨v, hv, -, htarget⟩ := exists_outcome_target ht r c.context
    rw [hx] at htarget
    obtain ⟨w, hw, hvalue⟩ := outcome_run_ok_iff.mp h
    rw [hform, Form.convert, outcome_typeOfReference htarget, if_pos hrecord] at hw
    obtain ⟨name, u', hdefine, hlast⟩ := outcome_bind_eq_ok_iff.mp hw
    cases hlast
    refine ⟨name, congrArg Prod.fst hvalue, ?_⟩
    exact lookup_of_defineOnce (s := s.within b) (moves_fieldWithin (s := s) (b, d)) hv hdefine

/-- In a successful import every target has in the end the name that it was given. -/
theorem Names.lookup (h : Names s es x p n)
    (hall : outcome (convertAll s i es) .empty = (.ok ⟨⟩, u)) :
    u.named.lookup (targetKey x) = some n := by
  cases h with
  | @entry before after e j names name t v hes hbefore he =>
    obtain ⟨k, hjk, name', v', he', hkeeps⟩ := exists_of_convertAll_ok hes hbefore hall
    rw [(convertEntry_approximates hjk e).ok he] at he'
    cases he'
    refine hkeeps _ _ ?_
    exact lookup_of_defineOnce (s := s.within j.1) (moves_fieldWithin (s := s) j)
      (valid_of_entries hbefore) he
  | @reference c t v r name x j nullable hreached hform hx hrecord hrun =>
    obtain ⟨v', ⟨k, a, hends⟩, hkeeps⟩ := hreached.ends hall
    have hle : j ≤ j ⊔ k := le_sup_left
    have hle' : k ≤ j ⊔ k := le_sup_right
    have hsame := (run_approximates hle c).ok hrun
    rw [(run_approximates hle' c).ok hends] at hsame
    cases hsame
    obtain ⟨name, hname, hlookup⟩ := exists_lookup_of_run hreached.valid hform hx hrecord hrun
    rw [TypeExpr.definition.inj hname]
    exact hkeeps _ _ hlookup

/-- In a successful import every target that is met gets a name. -/
theorem Met.exists_names (h : Met s es x p)
    (hall : outcome (convertAll s i es) .empty = (.ok ⟨⟩, u)) : ∃ n, Names s es x p n := by
  cases h with
  | @entry e he =>
    obtain ⟨before, after, hes⟩ := List.append_of_mem he
    obtain ⟨all, v, hentries, -⟩ := outcome_bind_eq_ok_iff.mp hall
    rw [hes] at hentries
    obtain ⟨names, t, name, w, rest, hbefore, hname, -⟩ := exists_of_mapM_ok hentries
    exact ⟨name, .entry hes hbefore hname⟩
  | @reference m r x hreached hform hx hrecord =>
    obtain ⟨c, t⟩ := m
    obtain ⟨v, ⟨k, ⟨type, nullable⟩, hrun⟩, -⟩ := hreached.ends hall
    obtain ⟨name, rfl, -⟩ := exists_lookup_of_run hreached.valid hform hx hrecord hrun
    exact ⟨name, .reference hreached hform hx hrecord hrun⟩

theorem Names.met (h : Names s es x p n) : Met s es x p := by
  cases h with
  | entry hes _ _ => exact .entry (hes ▸ List.mem_append_right _ List.mem_cons_self)
  | reference hreached hform hx hrecord _ => exact .reference hreached hform hx hrecord

/-- In a successful import two targets have one name if and only if they have one key. -/
theorem Names.name_eq_iff (hn : Names s es x p n) (hm : Names s es y q m)
    (hall : outcome (convertAll s i es) .empty = (.ok ⟨⟩, u)) :
    n = m ↔ targetKey x = targetKey y := by
  have hx := hn.lookup hall
  have hy := hm.lookup hall
  constructor
  · rintro rfl
    exact (orderly_of_convertAll hall).distinct _ _ n hx hy
  · intro hkey
    rw [hkey, hy] at hx
    exact (Option.some.inj hx).symm

/-! ## Keys and places -/

/-- The schema that a reference leads to stands at its place, however the place is spelled. -/
theorem exists_way_of_targetOf {resolver : ReferenceResolver} {r : String}
    {context : ReferenceContext} (h : targetOf resolver r context = .ok x) :
    ∃ way, x.place.way = some way ∧
      way.foldlM Pointer.partAt? x.context.document = some x.schema :=
  Pointer.exists_way_of_find? (resolver.target_of_found (targetOf_eq_ok_iff.mp h)).1

/-- A target at some place is spelled as is usual, and without percent signs. -/
structure Plain (x : ReferenceTarget) (p : Place) : Prop where
  file : x.context.file.map (·.path) = p.file
  way : Pointer.way? x.context.document x.pointer = p.way
  pointer : p.way.map Pointer.ofWay = some x.pointer
  noPercent : '%' ∉ x.pointer.toList

/-- The keys of targets that are spelled as is usual tell their places. -/
theorem targetKey_eq_iff (hx : Plain x p) (hy : Plain y q)
    (hdocument : p.file = q.file → x.context.document = y.context.document) :
    targetKey x = targetKey y ↔ p = q := by
  unfold targetKey
  rw [TargetKey.mk.injEq, hx.file, hy.file, Pointer.decoded_of_not_mem hx.noPercent,
    Pointer.decoded_of_not_mem hy.noPercent]
  constructor
  · rintro ⟨hfile, hpointer⟩
    have hway : p.way = q.way := by
      rw [← hx.way, ← hy.way, hdocument hfile, hpointer]
    cases p
    cases q
    cases hfile
    cases hway
    rfl
  · rintro rfl
    exact ⟨rfl, Option.some.inj (hx.pointer.symm.trans hy.pointer)⟩

/-! ## Documents at hand -/

/-- The document that an import begins with, or one that is read from the file it is said to come
from. -/
def AtHand (resolver : ReferenceResolver) (first context : ReferenceContext) : Prop :=
  context = first ∨ ∃ path, context.file = some (.ofPath path) ∧
    resolver.document? path = .ok (some context.document)

/-- If a document comes from a file, then it is what is read from that file. -/
def Kept (resolver : ReferenceResolver) (context : ReferenceContext) : Prop :=
  ∀ file ∈ context.file, ∀ d, resolver.document? file.path = .ok (some d) → d = context.document

theorem closed_atHand (resolver : ReferenceResolver) (first : ReferenceContext) :
    Closed resolver (AtHand resolver first) := by
  intro context hcontext r x hx
  obtain ⟨-, hsame | ⟨path, hdocument, hfile⟩⟩ :=
    ReferenceResolver.target_of_found (targetOf_eq_ok_iff.mp hx)
  · rwa [hsame]
  · exact .inr ⟨path.normalize, hfile, hdocument⟩

theorem AtHand.kept {resolver : ReferenceResolver} {first context : ReferenceContext}
    (h : AtHand resolver first context) (hfirst : Kept resolver first) : Kept resolver context := by
  rcases h with rfl | ⟨path, hfile, hdocument⟩
  · exact hfirst
  · intro file hmem d hd
    rw [hfile] at hmem
    obtain rfl := Option.some.inj hmem
    rw [DocumentFile.ofPath, hdocument] at hd
    exact (Option.some.inj (Except.ok.inj hd)).symm

/-- There is one document for each file, and one that comes from no file. -/
theorem AtHand.document_eq {resolver : ReferenceResolver} {first context other : ReferenceContext}
    (h : AtHand resolver first context) (h' : AtHand resolver first other)
    (hfirst : Kept resolver first)
    (hfile : context.file.map (·.path) = other.file.map (·.path)) :
    context.document = other.document := by
  have hread {here there : ReferenceContext} {path : Path} (hthere : Kept resolver there)
      (hsame : there.file.map (·.path) = here.file.map (·.path))
      (hpath : here.file = some (.ofPath path))
      (hdocument : resolver.document? path = .ok (some here.document)) :
      here.document = there.document := by
    rw [hpath, Option.map_some, Option.map_eq_some_iff] at hsame
    obtain ⟨file, hmem, rfl⟩ := hsame
    exact hthere file hmem _ hdocument
  rcases h with rfl | ⟨path, hpath, hdocument⟩
  · rcases h' with rfl | ⟨path, hpath, hdocument⟩
    · rfl
    · exact (hread hfirst hfile hpath hdocument).symm
  · exact hread (h'.kept hfirst) hfile.symm hpath hdocument

theorem Met.atHand {first : ReferenceContext} (h : Met s es x p)
    (hes : ∀ e ∈ es, Lies (AtHand s.resolver first) e.target.schema e.target.context) :
    AtHand s.resolver first x.context := by
  have hclosed := closed_atHand s.resolver first
  cases h with
  | entry he => exact (hes _ he).among
  | reference hreached _ hx _ => exact ((hreached.lies hclosed hes).target hclosed hx).among

end Schema

namespace Import

open Schema

variable {o : ImportOptions} {loader : Loader} {base : Path} {context : ReferenceContext}
  {bound : Nat} {r : ImportResult}

/-- What a successful import gives is what is known after all its entries. -/
theorem exists_convertAll_of_result {kind : DocumentKind}
    (hkind : o.kind.getD (.ofDocument context.document) = kind) (hschema : kind ≠ .data)
    (h : (runWithin bound o loader base context).result = .ok r) :
    ∃ t, outcome (convertAll (setting o loader base) (bound, bound) (entriesOf o context)) .empty =
      (.ok ⟨⟩, t) ∧ r = ⟨t.definitions, t.warnings⟩ := by
  rw [runWithin_eq, hkind] at h
  cases kind with
  | openApi => exact ok_of_converted h
  | jsonSchema => exact ok_of_converted h
  | data => exact absurd rfl hschema

/-- A sample has no entries, so no target is met in it. -/
theorem not_met_of_sample (hkind : o.kind.getD (.ofDocument context.document) = .data)
    {x : ReferenceTarget} {p : Place} :
    ¬ Met (setting o loader base) (entriesOf o context) x p := by
  have hentries : entriesOf o context = [] := by
    unfold entriesOf
    rw [hkind]
    rfl
  rw [hentries]
  rintro (he | ⟨⟨_, ⟨hbegins, -⟩, -⟩, -, -, -⟩)
  · exact List.not_mem_nil he
  · exact List.not_mem_nil hbegins.mem

theorem lies_atHand (o : ImportOptions) (loader : Loader) (base : Path) (context : ReferenceContext) :
    ∀ e ∈ entriesOf o context,
      Lies (AtHand (setting o loader base).resolver context) e.target.schema e.target.context := by
  intro e he
  obtain ⟨hcontext, hinside⟩ := lies_of_entries he
  rw [hcontext]
  exact ⟨.inl rfl, hinside⟩

/-- In a successful import every record target that is met has a name with a definition,
and two targets have one name if and only if they have one key. So they have one name for
one place if and only if their keys tell the places. Targets that are spelled as is usual and
without percent signs have one name if and only if they are at one place, unless the document that
is begun with is not what is read from its file; and what a reference leads to stands at its place. -/
theorem names_iff (o : ImportOptions) (loader : Loader) (base : Path) (context : ReferenceContext)
    (bound : Nat) (r : ImportResult)
    (h : (runWithin bound o loader base context).result = .ok r) :
    (∀ x p, Met (setting o loader base) (entriesOf o context) x p →
      ∃ n ∈ r.definitions.names, Names (setting o loader base) (entriesOf o context) x p n) ∧
    (∀ x p n y q m, Names (setting o loader base) (entriesOf o context) x p n →
      Names (setting o loader base) (entriesOf o context) y q m →
        (n = m ↔ targetKey x = targetKey y)) ∧
    ((∀ x p n y q m, Names (setting o loader base) (entriesOf o context) x p n →
      Names (setting o loader base) (entriesOf o context) y q m → (n = m ↔ p = q)) ↔
    ∀ x p y q, Met (setting o loader base) (entriesOf o context) x p →
      Met (setting o loader base) (entriesOf o context) y q →
        (targetKey x = targetKey y ↔ p = q)) ∧
    (Kept (setting o loader base).resolver context →
      ∀ x p n y q m, Names (setting o loader base) (entriesOf o context) x p n →
        Names (setting o loader base) (entriesOf o context) y q m →
          Plain x p → Plain y q → (n = m ↔ p = q)) ∧
    ∀ reference here x, targetOf (setting o loader base).resolver reference here = .ok x →
      ∃ way, x.place.way = some way ∧
        way.foldlM Pointer.partAt? x.context.document = some x.schema := by
  have hstands : ∀ reference here x,
      targetOf (setting o loader base).resolver reference here = .ok x →
        ∃ way, x.place.way = some way ∧
          way.foldlM Pointer.partAt? x.context.document = some x.schema :=
    fun _ _ _ => exists_way_of_targetOf
  by_cases hkind : o.kind.getD (.ofDocument context.document) = .data
  · have hnone {x : ReferenceTarget} {p : Place} :
        ¬ Met (setting o loader base) (entriesOf o context) x p := not_met_of_sample hkind
    refine ⟨fun x p hx => absurd hx hnone, fun x p n y q m hn => absurd hn.met hnone, ⟨?_, ?_⟩,
      fun _ x p n y q m hn => absurd hn.met hnone, hstands⟩
    · exact fun _ x p y q hx => absurd hx hnone
    · exact fun _ x p n y q m hn => absurd hn.met hnone
  · obtain ⟨t, hall, rfl⟩ := exists_convertAll_of_result rfl hkind h
    have horderly := orderly_of_convertAll hall
    refine ⟨fun x p hx => ?_, fun x p n y q m hn hm => hn.name_eq_iff hm hall, ⟨?_, ?_⟩, ?_, hstands⟩
    · obtain ⟨n, hn⟩ := hx.exists_names hall
      exact ⟨n, horderly.defined n (horderly.used _ n (hn.lookup hall)), hn⟩
    · intro hplaces x p y q hx hy
      obtain ⟨n, hn⟩ := hx.exists_names hall
      obtain ⟨m, hm⟩ := hy.exists_names hall
      exact (hn.name_eq_iff hm hall).symm.trans (hplaces x p n y q m hn hm)
    · intro hkeys x p n y q m hn hm
      exact (hn.name_eq_iff hm hall).trans (hkeys x p y q hn.met hm.met)
    · intro hkept x p n y q m hn hm hx hy
      have hatHand := hn.met.atHand (lies_atHand o loader base context)
      have hatHand' := hm.met.atHand (lies_atHand o loader base context)
      have hdocument (hfile : p.file = q.file) : x.context.document = y.context.document :=
        hatHand.document_eq hatHand' hkept (by rw [hx.file, hy.file, hfile])
      exact (hn.name_eq_iff hm hall).trans (targetKey_eq_iff hx hy hdocument)

/-! ## Two records under one name -/

def spacedSchema : Document :=
  .object [("properties", .object [("a", .object [("type", .string "integer")])])]

def escapedSchema : Document :=
  .object [("properties", .object [("b", .object [("type", .string "string")])])]

/-- A document with two records whose keys differ in how a space is written. -/
def spacedDocument : Document :=
  .object [("$schema", .string "s"),
    ("$defs", .object [("My Type", spacedSchema), ("My%20Type", escapedSchema)])]

def spacedEntry : Entry :=
  ⟨⟨spacedSchema, ⟨spacedDocument, none⟩, "/$defs/My Type"⟩, "My Type",
    [.member "$defs", .member "My Type"]⟩

def escapedEntry : Entry :=
  ⟨⟨escapedSchema, ⟨spacedDocument, none⟩, "/$defs/My%20Type"⟩, "My Type",
    [.member "$defs", .member "My%20Type"]⟩

theorem entriesOf_spacedDocument :
    entriesOf .usual ⟨spacedDocument, none⟩ = [spacedEntry, escapedEntry] := by
  have hkind : DocumentKind.ofDocument spacedDocument = .jsonSchema := by decide +kernel
  have hkey : Pointer.lastKey? "/$defs/My Type" = some "My Type" := by decide +kernel
  have hkey' : Pointer.lastKey? "/$defs/My%20Type" = some "My Type" := by decide +kernel
  have hname (x : ReferenceTarget) (hx : Pointer.lastKey? x.pointer = some "My Type") :
      suggestedName? x = some "My Type" := by
    simp only [suggestedName?, hx]
  change entries (.ofDocument spacedDocument) _ _ = _
  rw [hkind]
  change [Entry.mk ⟨spacedSchema, ⟨spacedDocument, none⟩, _⟩ ((suggestedName? _).getD _) _,
    Entry.mk ⟨escapedSchema, ⟨spacedDocument, none⟩, _⟩ ((suggestedName? _).getD _) _] = _
  rw [hname _ hkey, hname _ hkey']
  rfl

theorem result_spacedDocument :
    ∃ r, (runWithin 8 .usual (.ofList []) .here ⟨spacedDocument, none⟩).result = .ok r ∧
      r.definitions.names = ["MyType"] :=
  exists_ok_of_decide (by decide +kernel)

theorem names_iff_spacedDocument :
    ∃ r, (runWithin 8 .usual (.ofList []) .here ⟨spacedDocument, none⟩).result = .ok r ∧
      ∀ x p n y q m,
        Names (setting .usual (.ofList []) .here) (entriesOf .usual ⟨spacedDocument, none⟩) x p n →
        Names (setting .usual (.ofList []) .here) (entriesOf .usual ⟨spacedDocument, none⟩) y q m →
          (n = m ↔ targetKey x = targetKey y) := by
  obtain ⟨r, hr, -⟩ := result_spacedDocument
  exact ⟨r, hr, (names_iff .usual (.ofList []) .here ⟨spacedDocument, none⟩ 8 r hr).2.1⟩

/-- Both records get one name, and one of them is missing. -/
theorem spacedDocument_shares_name :
    ∃ bound r, (runWithin bound .usual (.ofList []) .here ⟨spacedDocument, none⟩).result = .ok r ∧
      r.definitions.names = ["MyType"] ∧ ∃ x p y q,
        Names (setting .usual (.ofList []) .here) (entriesOf .usual ⟨spacedDocument, none⟩)
          x p "MyType" ∧
        Names (setting .usual (.ofList []) .here) (entriesOf .usual ⟨spacedDocument, none⟩)
          y q "MyType" ∧ p ≠ q := by
  let s := setting .usual (.ofList []) .here
  obtain ⟨r, hr, hnames⟩ := result_spacedDocument
  have hcheck : (match (outcome (convertEntry s (8, 8) spacedEntry) .empty).1 with
      | .ok n => n == "MyType"
      | .error _ => false) = true := by decide +kernel
  generalize hfirst : outcome (convertEntry s (8, 8) spacedEntry) .empty = first at hcheck
  obtain ⟨f | n, u⟩ := first
  · cases hcheck
  rw [eq_of_beq hcheck] at hfirst
  have hkey : targetKey escapedEntry.target = targetKey spacedEntry.target := by decide +kernel
  have hlookup := lookup_of_defineOnce (s := s.within 8) (moves_fieldWithin (s := s) (8, 8))
    (LookupMemory.valid_empty _) hfirst
  have hbefore : outcome ([spacedEntry].mapM (convertEntry s (8, 8))) .empty =
      (.ok ["MyType"], u) := by
    rw [List.mapM_cons, outcome_bind_of_ok hfirst]
    rfl
  have hsecond : outcome (convertEntry s (8, 8) escapedEntry) u = (.ok "MyType", u) := by
    unfold convertEntry
    rw [outcome_defineOnce, hkey, hlookup]
  have hentries : entriesOf .usual ⟨spacedDocument, none⟩ = [] ++ spacedEntry :: [escapedEntry] :=
    entriesOf_spacedDocument
  have hentries' : entriesOf .usual ⟨spacedDocument, none⟩ = [spacedEntry] ++ escapedEntry :: [] :=
    entriesOf_spacedDocument
  exact ⟨8, r, hr, hnames, _, _, _, _, .entry hentries rfl hfirst,
    .entry hentries' hbefore hsecond, by decide +kernel⟩

end Import

end RecordDefinitions
