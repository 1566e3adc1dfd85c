import RecordDefinitions.Proofs.Import.Place
import RecordDefinitions.Proofs.Schema.Legs
import RecordDefinitions.Proofs.Schema.Termination

/-!
# Cycles of references

A target depends on a reference that has to be followed before it is known what the
target is. A record ends that: its fields may refer back to anything. The trail however
is kept when the fields of a record are converted, so an import may report references
as a cycle that do not depend on each other.
-/

namespace RecordDefinitions.Schema

open Relation

/-- The type of a schema comes to a reference without crossing a record. -/
inductive Meets : Document → String → Prop
  | here {schema : Document} {r : String} : form schema = .reference r → Meets schema r
  | piece {schema part : Document} {ps : List Piece}
    {whole : List (TypeExpr × Bool) → TypeExpr × Bool} {rename : String → String}
    {wrap : TypeExpr × Bool → TypeExpr × Bool} {r : String} :
    ¬ isRecord schema → form schema = .pieces ps whole → .inner part rename wrap ∈ ps →
    Meets part r → Meets schema r

/-- A reference stands in place of a schema or among the members of its `allOf`. -/
inductive Member : Document → String → Prop
  | here {schema : Document} {r : String} : schema.string? "$ref" = some r → Member schema r
  | part {schema part : Document} {r : String} :
    schema.string? "$ref" = none → part ∈ (schema.array? "allOf").getD [] → Member part r →
      Member schema r

/-- What a target needs to know before it is known itself. -/
def Needs (x : ReferenceTarget) (r : String) : Prop :=
  if isRecord x.schema then Member x.schema r else Meets x.schema r

/-- A target depends on another one by a reference. -/
structure Depends (resolver : ReferenceResolver) (x : ReferenceTarget) (r : String)
    (y : ReferenceTarget) : Prop where
  needs : Needs x r
  leads : targetOf resolver r x.context = .ok y

/-- A record is crossed on the way around a loop. -/
def CrossesRecord (loop : List Leg) : Prop := ∃ l ∈ loop.tail, l.crossing

/-- A loop leads to the place where it has started, and not to one that is only taken
for it. -/
def Returns (loop : List Leg) : Prop :=
  ∀ first ∈ loop.head?, ∀ last ∈ loop.getLast?, first.target.place = last.target.place

/-- Each leg of a loop depends on the next one, and the last leads to the place where the
first has led. -/
structure Genuine (resolver : ReferenceResolver) (loop : List Leg) : Prop where
  depends : loop.IsChain fun l l' => Depends resolver l.target l'.reference l'.target
  returns : Returns loop

/-- Each leg depends on the next one unless a record is crossed between them. -/
def Linked (resolver : ReferenceResolver) (legs : List Leg) : Prop :=
  legs.IsChain fun l l' => l'.crossing = false → Depends resolver l.target l'.reference l'.target

/-- Where no record was crossed, whatever a schema needs the last target needs. -/
def Site.Inside (needs : Document → String → Prop) (site : Site) : Prop :=
  site.crossing = false → ∃ l ∈ site.legs.getLast?, site.context = l.target.context ∧
    ∀ r, needs site.schema r → Needs l.target r

variable {s : Setting} {es : List Entry} {legs : List Leg} {crossing : Bool}
  {m n : Call × Progress} {closing : Leg} {resolver : ReferenceResolver} {t : Progress}
  {schema : Document} {context : ReferenceContext} {x : ReferenceTarget} {r : String}

/-! ## Where records are crossed -/

theorem object?_eq_none (h : ¬ isRecord schema) :
    schema.object? "properties" = none ∧ schema.array? "allOf" = none := by
  unfold isRecord at h
  simpa using h

/-- Only records ask for properties. -/
theorem isRecord_of_asks {trail : Trail} (hform : form schema = .record)
    (ht : t.lookup.Valid s.resolver.loader) (h : Asks s trail schema context t n) :
    isRecord schema := by
  by_contra hrecord
  obtain ⟨hprops, hall⟩ := object?_eq_none hrecord
  cases h with
  | @property u v depth comp before after p i fields hcompose hlist hbefore =>
    obtain ⟨_, -, houtcome⟩ := searches_compose (s := s) depth trail schema context .empty t ht
    have hcomp := congrArg Prod.fst (houtcome.symm.trans hcompose)
    have hr : schema.string? "$ref" = none := by
      cases hr : schema.string? "$ref" with
      | none => rfl
      | some r =>
        rw [form_of_string? hr] at hform
        cases hform
    cases depth with
    | zero => cases hcomp
    | succ depth =>
      rw [composed_of_parts hr, hall] at hcomp
      cases hcomp
      unfold Composition.declare at hlist
      rw [hprops] at hlist
      cases before <;> cases hlist

/-! ## Legs on the way to a conversion -/

theorem Linked.append (h : Linked resolver legs)
    (hlast : closing.crossing = false →
      ∃ l ∈ legs.getLast?, Depends resolver l.target closing.reference closing.target) :
    Linked resolver (legs ++ [closing]) := by
  refine List.isChain_append.mpr ⟨h, List.isChain_singleton _, fun l hl l' hl' hcrossing => ?_⟩
  rw [List.head?_cons, Option.mem_some_iff] at hl'
  subst hl'
  obtain ⟨last, hmem, hdepends⟩ := hlast hcrossing
  rwa [Option.mem_unique hl hmem]

theorem Site.Inside.depends {needs : Document → String → Prop} {site : Site}
    (h : site.Inside needs) (hneeds : needs site.schema r)
    (hx : targetOf resolver r site.context = .ok x) (hcrossing : site.crossing = false) :
    ∃ l ∈ site.legs.getLast?, Depends resolver l.target r x := by
  obtain ⟨l, hl, hcontext, hall⟩ := h hcrossing
  exact ⟨l, hl, hall r hneeds, hcontext ▸ hx⟩

theorem Takes.linked (h : Takes s es legs crossing m) :
    Linked s.resolver legs ∧ Site.Inside Meets ⟨legs, crossing, m.1.schema, m.1.context⟩ := by
  induction h with
  | opened hopens => exact ⟨.nil, fun hcrossing => by cases hcrossing⟩
  | @nested legs crossing m n htakes hnests ih =>
    refine ⟨ih.1, fun hcrossing => ?_⟩
    obtain ⟨hcrossing, hrecord⟩ := Bool.or_eq_false_iff.mp hcrossing
    have hrecord' : ¬ isRecord m.1.schema := by rw [hrecord]; exact Bool.false_ne_true
    obtain ⟨l, hl, hcontext, hneeds⟩ := ih.2 hcrossing
    cases hnests with
    | piece hform _ =>
      refine ⟨l, hl, hcontext, fun r hr => hneeds r ?_⟩
      exact .piece hrecord' hform (List.mem_append_right _ List.mem_cons_self) hr
    | @property c t _ hform hasks =>
      have hvalid := htakes.reached.valid
      exact absurd (isRecord_of_asks (t := t.reserving s.options c.hint) hform hvalid hasks) hrecord'
  | @inPlace legs crossing c t u r x trail htakes hform htarget hrecord _ ih =>
    obtain ⟨_, -, houtcome⟩ := searches_target (s := s) r c.context t htakes.reached.valid
    have hx := congrArg Prod.fst (houtcome.symm.trans htarget)
    refine ⟨ih.1.append fun hcrossing => ih.2.depends (.here hform) hx hcrossing, fun _ => ?_⟩
    refine ⟨⟨r, x, crossing⟩, by simp, rfl, fun r' hr' => ?_⟩
    unfold Needs
    rwa [if_neg hrecord]
  | property _ _ _ _ _ _ ih => exact ⟨ih.1, fun hcrossing => by cases hcrossing⟩

/-! ## Legs on the way to a part -/

theorem needs_of_member (h : Member x.schema r) : Needs x r := by
  unfold Needs
  split
  · exact h
  · rename_i hrecord
    cases h with
    | here hr => exact .here (form_of_string? hr)
    | part _ hpart _ =>
      rw [(object?_eq_none hrecord).2] at hpart
      cases hpart

theorem Composes.linked {start : Site} (h : Composes s es start) :
    Linked s.resolver start.legs ∧ start.Inside Member := by
  cases h with
  | entry _ => exact ⟨.nil, fun hcrossing => by cases hcrossing⟩
  | inPlace htakes _ => exact ⟨htakes.linked.1, fun hcrossing => by cases hcrossing⟩
  | target htakes _ _ _ _ => exact ⟨htakes.linked.1, fun hcrossing => by cases hcrossing⟩

theorem Pulls.linked {site site' : Site} (h : Pulls resolver site site')
    (hlinked : Linked resolver site.legs) (hinside : site.Inside Member) :
    Linked resolver site'.legs ∧ site'.Inside Member := by
  cases h with
  | part hr hparts _ =>
    refine ⟨hlinked, fun hcrossing => ?_⟩
    obtain ⟨l, hl, hcontext, hneeds⟩ := hinside hcrossing
    refine ⟨l, hl, hcontext, fun r hmember => hneeds r ?_⟩
    exact .part hr (hparts ▸ List.mem_append_right _ List.mem_cons_self) hmember
  | @reference legs crossing schema context r x hr hx _ =>
    refine ⟨hlinked.append fun hcrossing => hinside.depends (.here hr) hx hcrossing, fun _ => ?_⟩
    exact ⟨⟨r, x, crossing⟩, by simp, rfl, fun r' hr' => needs_of_member hr'⟩

/-- The legs around a cycle that an import closes are linked. -/
theorem Closes.linked (h : Closes s es legs closing) :
    Linked s.resolver (legs ++ [closing]) := by
  cases h with
  | @inPlace legs crossing m closing htakes hform hrecord hclosing =>
    obtain ⟨hlinked, hinside⟩ := htakes.linked
    refine hlinked.append fun hcrossing => ?_
    exact hinside.depends (.here hform) hclosing.target (hclosing.crossing ▸ hcrossing)
  | @composing start site closing hstart hpulls hclosing =>
    suffices hsite : Linked s.resolver site.legs ∧ site.Inside Member by
      refine hsite.1.append fun hcrossing => ?_
      exact hsite.2.depends (.here hclosing.reference) hclosing.target
        (hclosing.crossing ▸ hcrossing)
    clear hclosing
    induction hpulls with
    | refl => exact hstart.linked
    | tail _ hlast ih => exact hlast.linked ih.1 ih.2

/-! ## Loops -/

theorem Linked.loopOf (h : Linked resolver (legs ++ [closing])) :
    Linked resolver (loopOf legs closing) := by
  refine h.suffix ?_
  obtain ⟨front, hfront⟩ :=
    List.dropWhile_suffix (l := legs) fun l => targetKey l.target ≠ targetKey closing.target
  refine ⟨front, ?_⟩
  unfold Schema.loopOf
  rw [← List.append_assoc, hfront]

/-- Where no record is crossed each leg depends on the next one. -/
theorem Linked.depends {loop : List Leg} (h : Linked resolver loop) (hloop : ¬ CrossesRecord loop) :
    loop.IsChain fun l l' => Depends resolver l.target l'.reference l'.target := by
  induction loop with
  | nil => exact .nil
  | cons l rest ih =>
    cases rest with
    | nil => exact .singleton l
    | cons l' rest =>
      obtain ⟨hfirst, hrest⟩ := List.isChain_cons_cons.mp h
      refine List.isChain_cons_cons.mpr ⟨hfirst ?_, ih hrest fun ⟨k, hk, hcrossing⟩ => ?_⟩
      · by_contra hcrossing
        exact hloop ⟨l', List.mem_cons_self, Bool.not_eq_false _ ▸ hcrossing⟩
      · exact hloop ⟨k, List.mem_cons_of_mem _ hk, hcrossing⟩

end RecordDefinitions.Schema

namespace RecordDefinitions.Import

open Schema

variable {o : ImportOptions} {loader : Loader} {base : Path} {context : ReferenceContext}

theorem exists_result_eq_error_iff {f : Failure} (hf : ∀ found, f ≠ .unsupportedRoot found)
    (hne : f ≠ endless) :
    (∃ bound, (runWithin bound o loader base context).result = .error f) ↔
      ∃ i, Fails (convertAll (setting o loader base) i (entriesOf o context)) .empty f := by
  simp only [result_eq_error_iff hf]
  constructor
  · rintro ⟨bound, h⟩
    exact ⟨(bound, bound), h⟩
  · rintro ⟨i, h⟩
    have hle : i ≤ (max i.1 i.2, max i.1 i.2) := ⟨Nat.le_max_left _ _, Nat.le_max_right _ _⟩
    exact ⟨max i.1 i.2, (convertAll_approximates hle _).fails hne h⟩

/-- An import reports the references around a loop whose last target is taken for the
first one. Its targets depend on each other, and no record is crossed between them, if
and only if no record is crossed and the loop really leads to where it has started. -/
theorem cyclicReference_iff (o : ImportOptions) (loader : Loader) (base : Path)
    (context : ReferenceContext) :
    (∀ chain, (∃ bound, (runWithin bound o loader base context).result =
        .error (.cyclicReference chain)) ↔
      ∃ legs closing, Closes (setting o loader base) (entriesOf o context) legs closing ∧
        (loopOf legs closing).map Leg.reference = chain) ∧
    ∀ legs closing, Closes (setting o loader base) (entriesOf o context) legs closing →
      (Genuine ⟨base, loader⟩ (loopOf legs closing) ∧ ¬ CrossesRecord (loopOf legs closing) ↔
        ¬ CrossesRecord (loopOf legs closing) ∧ Returns (loopOf legs closing)) := by
  constructor
  · intro chain
    rw [exists_result_eq_error_iff (by simp) (by simp [endless])]
    exact fails_cyclic_iff
  · intro legs closing hcloses
    constructor
    · rintro ⟨hgenuine, hloop⟩
      exact ⟨hloop, hgenuine.returns⟩
    · rintro ⟨hloop, hreturns⟩
      exact ⟨⟨hcloses.linked.loopOf.depends hloop, hreturns⟩, hloop⟩

/-! ## A list of records that is taken for a cycle -/

/-- A list of nodes. -/
def nodesSchema : Document :=
  .object [("type", .string "array"), ("items", .object [("$ref", .string "#/$defs/Node")])]

/-- A document with a list of nodes each of which has such a list again. -/
def nodesDocument : Document :=
  let nodes := Document.object [("$ref", .string "#/$defs/Nodes")]
  .object [("$schema", .string "s"), ("properties", .object [("nodes", nodes)]),
    ("$defs", .object [("Nodes", nodesSchema),
      ("Node", .object [("properties", .object [("children", nodes)])])])]

/-- The list depends on the node and on nothing else. -/
theorem eq_of_meets_nodesSchema {r : String} (h : Meets nodesSchema r) : r = "#/$defs/Node" := by
  have hitem {r : String} (h : Meets (.object [("$ref", .string "#/$defs/Node")]) r) :
      r = "#/$defs/Node" := by
    have hform : form (.object [("$ref", .string "#/$defs/Node")]) = .reference "#/$defs/Node" :=
      form_of_string? (by decide +kernel)
    cases h with
    | here hform' =>
      rw [hform] at hform'
      exact (Form.reference.inj hform').symm
    | piece _ hform' _ _ =>
      rw [hform] at hform'
      cases hform'
  cases h with
  | here hform => cases hform
  | piece _ hform hmem hpart =>
    cases hform
    rcases List.mem_singleton.mp hmem with ⟨⟩
    exact hitem hpart

/-- The list is reported as a cycle, but the references that are reported walk none. -/
theorem nodesDocument_reported :
    ∃ bound chain, (runWithin bound .usual (.ofList []) .here ⟨nodesDocument, none⟩).result =
        .error (.cyclicReference chain) ∧
      ∀ loop : List Leg, loop.map Leg.reference = chain →
        (∀ first ∈ loop.head?, targetOf ⟨.here, .ofList []⟩ first.reference
          ⟨nodesDocument, none⟩ = .ok first.target) →
        ¬ Genuine ⟨.here, .ofList []⟩ loop := by
  have hcheck : (match (runWithin 8 .usual (.ofList []) .here ⟨nodesDocument, none⟩).result with
      | .error (.cyclicReference chain) => chain == ["#/$defs/Nodes", "#/$defs/Nodes"]
      | _ => false) = true := by decide +kernel
  split at hcheck
  · rename_i chain hresult
    refine ⟨8, chain, hresult, fun loop hlabels hfirst hgenuine => ?_⟩
    rw [eq_of_beq hcheck] at hlabels
    obtain ⟨first, rest, rfl, hr, hrest⟩ := List.map_eq_cons_iff.mp hlabels
    obtain ⟨last, _, rfl, hr', -⟩ := List.map_eq_cons_iff.mp hrest
    have hnodes : targetOf ⟨.here, .ofList []⟩ "#/$defs/Nodes" ⟨nodesDocument, none⟩ =
        .ok ⟨nodesSchema, ⟨nodesDocument, none⟩, "/$defs/Nodes"⟩ := by
      with_unfolding_all rfl
    have htarget := hfirst first rfl
    rw [hr, hnodes] at htarget
    have hneeds := (List.isChain_cons_cons.mp hgenuine.depends).1.needs
    rw [← Except.ok.inj htarget, hr'] at hneeds
    exact absurd (eq_of_meets_nodesSchema hneeds) (by decide)
  · cases hcheck

end RecordDefinitions.Import
