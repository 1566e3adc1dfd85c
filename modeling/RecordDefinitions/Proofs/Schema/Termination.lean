import Mathlib.Data.Fintype.Pigeonhole
import Mathlib.Data.Set.Finite.List
import RecordDefinitions.Proofs.Import.Files
import RecordDefinitions.Proofs.Schema.Reach

/-!
# When an import comes to an end

References are no danger: one that is followed is either put on the trail, which never
holds a target twice, or gives a name to a target that had none. An import that does
not end must therefore meet a schema of records which, without a reference to be
followed, stands in itself.
-/

namespace RecordDefinitions.Schema

open Relation

/-- How many references can still be followed. -/
def remaining (resolver : ReferenceResolver) (contexts : List ReferenceContext)
    (m : Call × Progress) : Nat :=
  (targetKeys resolver contexts).countP (fun key => (m.2.named.lookup key).isNone) +
    ((targetKeys resolver contexts).length - m.1.trail.length)

/-- A conversion in the documents for which no bounds suffice. -/
structure Unending (s : Setting) (contexts : List ReferenceContext) (m : Call × Progress) :
    Prop where
  within : m.1.Within s.resolver contexts
  valid : m.2.lookup.Valid s.resolver.loader
  endless : ∀ i, Fails (m.1.run s i) m.2 endless

/-- An import meets a schema that is nested in itself, under the same references. -/
def NestedInItself (s : Setting) (es : List Entry) : Prop :=
  ∃ m n, Reached s es m ∧ TransGen (Nests s) m n ∧ m.1.Same n.1

variable {s : Setting} {contexts : List ReferenceContext} {m n : Call × Progress}
  {es : List Entry}

theorem countP_unnamed_le {t t' : Progress} (h : t.Keeps t') (keys : List TargetKey) :
    keys.countP (fun key => (t'.named.lookup key).isNone) ≤
      keys.countP (fun key => (t.named.lookup key).isNone) := by
  refine List.countP_mono_left fun key _ hnew => ?_
  cases hknown : t.named.lookup key with
  | none => rfl
  | some name =>
    rw [h key name hknown] at hnew
    exact hnew

theorem countP_unnamed_lt {t t' : Progress} (h : t.Keeps t') {keys : List TargetKey}
    {key : TargetKey} {name : String} (hkey : key ∈ keys) (hnew : t.named.lookup key = none)
    (hname : t'.named.lookup key = some name) :
    keys.countP (fun key => (t'.named.lookup key).isNone) <
      keys.countP (fun key => (t.named.lookup key).isNone) := by
  obtain ⟨before, after, rfl⟩ := List.append_of_mem hkey
  have hbefore := countP_unnamed_le h before
  have hafter := countP_unnamed_le h after
  rw [List.countP_append, List.countP_append, List.countP_cons, List.countP_cons]
  simp only [hnew, hname, Option.isNone_none, Option.isNone_some, if_true]
  simp only [Bool.false_eq_true, if_false]
  omega

theorem Nests.remaining_le (hclosed : Closed s.resolver (· ∈ contexts))
    (hm : m.1.Within s.resolver contexts) (hvalid : m.2.lookup.Valid s.resolver.loader)
    (h : Nests s m n) :
    remaining s.resolver contexts n ≤ remaining s.resolver contexts m := by
  obtain ⟨-, htrail⟩ := Nests.within hclosed hm hvalid h
  have hcount := countP_unnamed_le (h.keeps hvalid).1 (targetKeys s.resolver contexts)
  unfold remaining
  rw [htrail]
  omega

theorem Follows.remaining_lt (hclosed : Closed s.resolver (· ∈ contexts))
    (hm : m.1.Within s.resolver contexts) (hvalid : m.2.lookup.Valid s.resolver.loader)
    (h : Follows s m n) :
    remaining s.resolver contexts n < remaining s.resolver contexts m := by
  obtain ⟨hwithin, hprogress⟩ := Follows.within hclosed hm hvalid h
  have hkeeps := ((Starts.followed h).steps hvalid).keeps
  have hlen := hwithin.trail.length_le
  unfold remaining
  rcases hprogress with hlonger | ⟨htrail, key, hkey, name, hnew, hname⟩
  · have hcount := countP_unnamed_le hkeeps (targetKeys s.resolver contexts)
    omega
  · have hcount := countP_unnamed_lt hkeeps hkey hnew hname
    rw [htrail]
    omega

theorem remaining_le_of_nests (hclosed : Closed s.resolver (· ∈ contexts))
    (hm : m.1.Within s.resolver contexts) (hvalid : m.2.lookup.Valid s.resolver.loader)
    (h : ReflTransGen (Nests s) m n) :
    remaining s.resolver contexts n ≤ remaining s.resolver contexts m := by
  suffices hall : n.1.Within s.resolver contexts ∧ n.2.lookup.Valid s.resolver.loader ∧
      remaining s.resolver contexts n ≤ remaining s.resolver contexts m from hall.2.2
  induction h with
  | refl => exact ⟨hm, hvalid, le_rfl⟩
  | tail _ hlast ih =>
    obtain ⟨hwithin, hvalid, hle⟩ := ih
    exact ⟨(Nests.within hclosed hwithin hvalid hlast).1, (hlast.keeps hvalid).2,
      (hlast.remaining_le hclosed hwithin hvalid).trans hle⟩

theorem Unending.next (hclosed : Closed s.resolver (· ∈ contexts)) (h : Unending s contexts m) :
    ∃ n, Starts s m n ∧ Unending s contexts n := by
  obtain ⟨c, t⟩ := m
  have hassembles {schema : Document} {context : ReferenceContext}
      (hlies : Lies (· ∈ contexts) schema context) : Assembles s.resolver c.trail schema context := by
    obtain ⟨depth, hdepth⟩ :=
      exists_composed_ne_endless hclosed schema context c.trail hlies h.within.trail
    exact ⟨depth, hdepth depth le_rfl .empty⟩
  obtain ⟨n, hstarts, hn⟩ := exists_starts_of_endless h.valid
    (fun _ => hassembles h.within.lies)
    (fun r x _ hx => hassembles (h.within.lies.target hclosed hx)) h.endless
  refine ⟨n, hstarts, ?_, (hstarts.steps h.valid).valid h.valid, hn⟩
  rcases hstarts with hnests | hfollows
  · exact (Nests.within hclosed h.within h.valid hnests).1
  · exact (Follows.within hclosed h.within h.valid hfollows).1

/-- Steps that never end come twice to the same place, where there are finitely many. -/
theorem exists_loop_of_forall {α β : Type} [Finite β] {r : α → α → Prop} (place : α → β)
    (h : ∀ a, ∃ b, r a b) (a : α) : ∃ b c, TransGen r b c ∧ place b = place c := by
  choose next hnext using h
  let chain (i : ℕ) : α := next^[i] a
  have hsucc (i : ℕ) : r (chain i) (chain (i + 1)) := by
    have hlast : chain (i + 1) = next (chain i) := Function.iterate_succ_apply' next i a
    rw [hlast]
    exact hnext (chain i)
  have hlater {i j : ℕ} (hij : i < j) : TransGen r (chain i) (chain j) :=
    Nat.rel_of_forall_rel_succ_of_lt (TransGen r) (fun k => .single (hsucc k)) hij
  obtain ⟨i, j, hne, hsame⟩ := Finite.exists_ne_map_eq_of_infinite fun i => place (chain i)
  rcases lt_or_gt_of_ne hne with hij | hij
  · exact ⟨_, _, hlater hij, hsame⟩
  · exact ⟨_, _, hlater hij, hsame.symm⟩

/-- Schemas that are nested without end are nested in themselves, since the documents
hold finitely many. -/
theorem exists_loop_of_nests (hclosed : Closed s.resolver (· ∈ contexts)) (hm : Unending s contexts m)
    (hnext : ∀ k, ReflTransGen (Nests s) m k → Unending s contexts k →
      ∃ n, Nests s k n ∧ Unending s contexts n) :
    ∃ k n, ReflTransGen (Nests s) m k ∧ TransGen (Nests s) k n ∧ k.1.Same n.1 := by
  let Inner := { k // ReflTransGen (Nests s) m k ∧ Unending s contexts k ∧ k.1.trail = m.1.trail }
  have hstep (k : Inner) : ∃ n : Inner, Nests s k.1 n.1 := by
    obtain ⟨k, hk, hunending, htrail⟩ := k
    obtain ⟨n, hnests, hn⟩ := hnext k hk hunending
    obtain ⟨-, hsame⟩ := Nests.within hclosed hunending.within hunending.valid hnests
    exact ⟨⟨n, hk.tail hnests, hn, hsame.trans htrail⟩, hnests⟩
  let sites := contexts.flatMap fun context => context.document.parts.map (·, context)
  have hsite (k : Inner) : (k.1.1.schema, k.1.1.context) ∈ sites := by
    have hlies := k.2.2.1.within.lies
    exact List.mem_flatMap.mpr ⟨_, hlies.among, List.mem_map.mpr ⟨_, hlies.inside, rfl⟩⟩
  have : Finite { x // x ∈ sites } := (List.finite_toSet sites).to_subtype
  obtain ⟨k, n, hloop, hsame⟩ := exists_loop_of_forall
    (fun k : Inner => (⟨_, hsite k⟩ : { x // x ∈ sites })) hstep ⟨m, .refl, hm, rfl⟩
  have hpair : (k.1.1.schema, k.1.1.context) = (n.1.1.schema, n.1.1.context) :=
    congrArg Subtype.val hsame
  refine ⟨k.1, n.1, k.2.1, TransGen.lift Subtype.val (fun _ _ h => h) k n hloop, ?_⟩
  exact ⟨k.2.2.2.trans n.2.2.2.symm, congrArg Prod.fst hpair, congrArg Prod.snd hpair⟩

theorem starts_of_nests (h : ReflTransGen (Nests s) m n) : ReflTransGen (Starts s) m n :=
  ReflTransGen.mono (fun _ _ => .nested) m n h

/-- A conversion for which no bounds suffice comes to a schema that is nested in itself. -/
theorem Unending.exists_loop (hclosed : Closed s.resolver (· ∈ contexts)) (h : Unending s contexts m) :
    ∃ k n, ReflTransGen (Starts s) m k ∧ TransGen (Nests s) k n ∧ k.1.Same n.1 := by
  induction hrank : remaining s.resolver contexts m using Nat.strong_induction_on
    generalizing m with
  | _ rank ih =>
  subst hrank
  by_cases hfollows : ∃ k n, ReflTransGen (Nests s) m k ∧ Unending s contexts k ∧
      Follows s k n ∧ Unending s contexts n
  · obtain ⟨k, n, hk, hunending, hstep, hn⟩ := hfollows
    have hless := (hstep.remaining_lt hclosed hunending.within hunending.valid).trans_le
      (remaining_le_of_nests hclosed h.within h.valid hk)
    obtain ⟨k', n', hk', hloop, hsame⟩ := ih _ hless hn rfl
    exact ⟨k', n', ((starts_of_nests hk).tail (.followed hstep)).trans hk', hloop, hsame⟩
  · obtain ⟨k, n, hk, hloop, hsame⟩ := exists_loop_of_nests hclosed h fun k hk hunending => by
      obtain ⟨n, hstarts, hn⟩ := hunending.next hclosed
      rcases hstarts with hnests | hstep
      · exact ⟨n, hnests, hn⟩
      · exact absurd ⟨k, n, hk, hunending, hstep, hn⟩ hfollows
    exact ⟨k, n, starts_of_nests hk, hloop, hsame⟩

/-- Some bounds suffice unless a schema is nested in itself. -/
theorem unbounded_iff_nestedInItself (hclosed : Closed s.resolver (· ∈ contexts))
    (hes : ∀ e ∈ es, Lies (· ∈ contexts) e.target.schema e.target.context) :
    (∀ i, Fails (convertAll s i es) .empty endless) ↔ NestedInItself s es := by
  constructor
  · intro h
    obtain ⟨n, hopens, hn⟩ := exists_opens_of_endless (fun e he => by
      obtain ⟨depth, hdepth⟩ :=
        exists_composed_ne_endless hclosed _ _ [] (hes e he) (Trail.over_nil _)
      exact ⟨depth, hdepth depth le_rfl .empty⟩) h
    have hunending : Unending s contexts n := ⟨(hopens.within hclosed hes).1, hopens.valid, hn⟩
    obtain ⟨k, k', hk, hloop, hsame⟩ := hunending.exists_loop hclosed
    exact ⟨k, k', ⟨n, hopens, hk⟩, hloop, hsame⟩
  · rintro ⟨m, n, hreached, hloop, hsame⟩
    exact hreached.unbounded fun i => endless_of_loop hloop hreached.valid hsame i

end RecordDefinitions.Schema

namespace RecordDefinitions.Import

open Schema

variable {o : ImportOptions} {loader : Loader} {base : Path} {context : ReferenceContext}

theorem result_ne_endless_iff {bound : Nat} :
    (runWithin bound o loader base context).result ≠ .error endless ↔
      ¬ Fails (convertAll (setting o loader base) (bound, bound) (entriesOf o context)) .empty
        endless := by
  rw [ne_eq, result_eq_error_iff fun found => by simp [endless]]

/-- Whatever the documents, an import comes to an end under some bound, unless it meets a
schema of records that stands in itself and is not kept from it by a reference. -/
theorem exists_bound_iff (o : ImportOptions) (files : List (String × String)) (base : Path)
    (context : ReferenceContext) :
    (∃ bound, (runWithin bound o (.ofList files) base context).result ≠ .error endless) ↔
      ¬ NestedInItself (setting o (.ofList files) base) (entriesOf o context) := by
  have hentries : ∀ e ∈ entriesOf o context,
      Lies (· ∈ context :: Loader.contexts files) e.target.schema e.target.context := by
    intro e he
    obtain ⟨hcontext, hpart⟩ := lies_of_entries he
    rw [hcontext]
    exact ⟨List.mem_cons_self, hpart⟩
  have hloop := unbounded_iff_nestedInItself (s := setting o (.ofList files) base)
    (Loader.closed_contexts files base context) hentries
  rw [← hloop, not_forall]
  simp only [result_ne_endless_iff]
  constructor
  · rintro ⟨bound, h⟩
    exact ⟨(bound, bound), h⟩
  · rintro ⟨i, h⟩
    refine ⟨max i.1 i.2, fun hstop => h ?_⟩
    have hle : i ≤ (max i.1 i.2, max i.1 i.2) := ⟨Nat.le_max_left _ _, Nat.le_max_right _ _⟩
    exact (convertAll_approximates hle _).stops hstop

/-! ## A schema that is nested in itself -/

/-- What a tree has for its children: a list of values that are put together from the
tree alone. -/
def childrenSchema : Document :=
  .object [("type", .string "array"), ("items", .object [("allOf", .array
    [.object [("$ref", .string "#/$defs/Node")]])])]

def treeSchema : Document := .object [("properties", .object [("children", childrenSchema)])]

/-- A document that keeps the schema of a tree for reference. -/
def treeDocument : Document :=
  .object [("$schema", .string "s"), ("$defs", .object [("Node", treeSchema)])]

theorem entriesOf_treeDocument :
    entriesOf .usual ⟨treeDocument, none⟩ =
      [⟨⟨treeSchema, ⟨treeDocument, none⟩, "/$defs/Node"⟩, "Node",
        [.member "$defs", .member "Node"]⟩] := by
  have hkind : DocumentKind.ofDocument treeDocument = .jsonSchema := by decide +kernel
  have hkey : Pointer.lastKey? "/$defs/Node" = some "Node" := by decide +kernel
  have hname (x : ReferenceTarget) (hx : x.pointer = "/$defs/Node") :
      suggestedName? x = some "Node" := by
    simp only [suggestedName?, hx, hkey]
  change entries (.ofDocument treeDocument) _ _ = _
  rw [hkind]
  change [Entry.mk ⟨treeSchema, ⟨treeDocument, none⟩, _⟩ ((suggestedName? _).getD _) _] = _
  rw [hname _ rfl]
  rfl

theorem composed_treeSchema (resolver : ReferenceResolver) (trail : Trail)
    (context : ReferenceContext) :
    composed resolver 1 trail treeSchema context .empty =
      .ok (Composition.empty.declare treeSchema context) :=
  composed_of_parts (by decide +kernel)

/-- Each of the children has the properties of the tree. -/
theorem composed_child (resolver : ReferenceResolver) :
    composed resolver 3 [] (.object [("allOf", .array [.object [("$ref", .string "#/$defs/Node")]])])
        ⟨treeDocument, none⟩ .empty =
      .ok (Composition.empty.declare treeSchema ⟨treeDocument, none⟩) := by
  have htarget : targetOf resolver "#/$defs/Node" ⟨treeDocument, none⟩ =
      .ok ⟨treeSchema, ⟨treeDocument, none⟩, "/$defs/Node"⟩ := by
    with_unfolding_all rfl
  have hmember : composed resolver 2 [] (.object [("$ref", .string "#/$defs/Node")])
      ⟨treeDocument, none⟩ .empty = .ok (Composition.empty.declare treeSchema ⟨treeDocument, none⟩) :=
    (composed_of_reference (by decide +kernel) htarget rfl).trans (composed_treeSchema _ _ _)
  rw [composed_of_parts (by decide +kernel)]
  change ([Document.object [("$ref", .string "#/$defs/Node")]].foldlM _ Composition.empty >>= _) = _
  rw [List.foldlM_cons, hmember]
  rfl

/-- The children of a tree are nested in themselves. -/
theorem treeDocument_unbounded :
    ¬ ∃ bound, (runWithin bound .usual (.ofList []) .here ⟨treeDocument, none⟩).result ≠
      .error endless := by
  rintro ⟨bound, hends⟩
  let s := setting .usual (.ofList []) .here
  let context : ReferenceContext := ⟨treeDocument, none⟩
  have hentries : entriesOf .usual context = [] ++ _ :: [] := entriesOf_treeDocument
  have hbegins : Begins s (entriesOf .usual context) _ _ := .entry (i := 0) hentries rfl rfl
  obtain ⟨u, hasks⟩ :=
    exists_asks_first hbegins.valid (composed_treeSchema s.resolver [] context) rfl
  have hu := (hasks.steps hbegins.valid).valid hbegins.valid
  have hopens := Opens.property hbegins hasks
  have hform : form childrenSchema = .pieces ([] ++ .inner _ _ _ :: []) soleType := rfl
  have hpiece : Nests s (⟨[], childrenSchema, Naming.pascal "children", context⟩, u) _ :=
    .piece (i := 0) hform rfl
  obtain ⟨v, hagain⟩ := exists_asks_first
    (t := u.reserving s.options (Naming.singular (Naming.pascal "children"))) hu
    (composed_child s.resolver) rfl
  have hproperty := Nests.property (s := s) (c := ⟨[], _, _, context⟩) rfl hagain
  have hreached : Reached s (entriesOf .usual context) _ := ⟨_, hopens, .refl⟩
  rw [result_ne_endless_iff] at hends
  refine hends (hreached.unbounded (fun i => ?_) (bound, bound))
  exact endless_of_loop (.tail (.single hpiece) hproperty) hu ⟨rfl, rfl, rfl⟩ i

end RecordDefinitions.Import
