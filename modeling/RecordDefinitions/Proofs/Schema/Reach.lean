import RecordDefinitions.Proofs.Schema.Entries
import RecordDefinitions.Proofs.Schema.Region

/-!
# What an import converts

An import comes to its entries one after the other. The records among them start
conversions, and these start all others. An import fails if and only if an entry does
by itself, or a conversion that is reached.
-/

namespace RecordDefinitions.Schema

open Relation

/-- An import comes to an entry that has no name so far. -/
inductive Begins (s : Setting) (es : List Entry) : Entry → Progress → Prop
  | entry {before after : List Entry} {e : Entry} {i : Nat × Nat} {names : List String}
    {t : Progress} :
    es = before ++ e :: after →
    outcome (before.mapM (convertEntry s i)) .empty = (.ok names, t) →
    t.named.lookup (targetKey e.target) = none → Begins s es e t

/-- The record of an entry after a name is reserved for it. -/
def Entry.naming (s : Setting) (e : Entry) (t : Progress) : Progress :=
  t.naming s.options (targetKey e.target) e.base

/-- An import starts the conversion of a property of an entry. -/
inductive Opens (s : Setting) (es : List Entry) : Call × Progress → Prop
  | property {e : Entry} {t : Progress} {n : Call × Progress} :
    Begins s es e t → Asks s [] e.target.schema e.target.context (e.naming s t) n → Opens s es n

/-- An import converts something at some time. -/
def Reached (s : Setting) (es : List Entry) (m : Call × Progress) : Prop :=
  ∃ n, Opens s es n ∧ ReflTransGen (Starts s) n m

variable {s : Setting} {es : List Entry} {e : Entry} {n m : Call × Progress} {i : Nat × Nat}
  {t : Progress} {f : Failure}

theorem valid_of_entries {before : List Entry} {names : List String}
    (h : outcome (before.mapM (convertEntry s i)) .empty = (.ok names, t)) :
    t.lookup.Valid s.resolver.loader :=
  ((Moves.mapM fun e _ => moves_convertEntry i e).steps (LookupMemory.valid_empty _) h).valid
    (LookupMemory.valid_empty _)

theorem Begins.valid (h : Begins s es e t) : (e.naming s t).lookup.Valid s.resolver.loader := by
  cases h with
  | entry _ hbefore _ =>
    have hvalid := valid_of_entries hbefore
    exact hvalid

theorem Begins.mem (h : Begins s es e t) : e ∈ es := by
  cases h with
  | entry hlist _ _ => exact hlist ▸ List.mem_append_right _ List.mem_cons_self

theorem Opens.valid (h : Opens s es n) : n.2.lookup.Valid s.resolver.loader := by
  cases h with
  | property hbegins hasks => exact (hasks.steps hbegins.valid).valid hbegins.valid

theorem Reached.valid (h : Reached s es m) : m.2.lookup.Valid s.resolver.loader := by
  obtain ⟨n, hopens, hstarts⟩ := h
  induction hstarts with
  | refl => exact hopens.valid
  | tail _ hstart ih => exact (hstart.steps ih).valid ih

theorem Opens.lies {Known : ReferenceContext → Prop} (hclosed : Closed s.resolver Known)
    (hes : ∀ e ∈ es, Lies Known e.target.schema e.target.context) (h : Opens s es n) :
    Lies Known n.1.schema n.1.context := by
  cases h with
  | property hbegins hasks => exact hasks.lies hclosed (hes _ hbegins.mem) hbegins.valid

/-- Everything that is converted stands in the documents that the entries and references lead to. -/
theorem Reached.lies {Known : ReferenceContext → Prop} (hclosed : Closed s.resolver Known)
    (hes : ∀ e ∈ es, Lies Known e.target.schema e.target.context) (h : Reached s es m) :
    Lies Known m.1.schema m.1.context := by
  obtain ⟨n, hopens, hstarts⟩ := h
  suffices hall : m.2.lookup.Valid s.resolver.loader ∧ Lies Known m.1.schema m.1.context from hall.2
  induction hstarts with
  | refl => exact ⟨hopens.valid, hopens.lies hclosed hes⟩
  | tail _ hstart ih =>
    obtain ⟨hvalid, hlies⟩ := ih
    refine ⟨(hstart.steps hvalid).valid hvalid, ?_⟩
    cases hstart with
    | nested h => exact Nests.lies hclosed hlies hvalid h
    | followed h => exact Follows.lies hclosed hlies hvalid h

theorem Opens.within {contexts : List ReferenceContext} (hclosed : Closed s.resolver (· ∈ contexts))
    (hes : ∀ e ∈ es, Lies (· ∈ contexts) e.target.schema e.target.context) (h : Opens s es n) :
    n.1.Within s.resolver contexts ∧ n.1.trail = [] := by
  cases h with
  | property hbegins hasks =>
    exact hasks.within hclosed (hes _ hbegins.mem) (Trail.over_nil _) hbegins.valid

/-! ## An import fails with what it converts -/

/-- An import fails with an entry that it comes to, unless its bounds do not suffice to
get there. -/
theorem Begins.passes (h : Begins s es e t) :
    ∃ j, ∀ i f, Fails (recordWithin s i [] e.target.schema e.target.context) (e.naming s t) f →
      (j ≤ i ∨ ¬ Fails (convertAll s i es) .empty endless) → Fails (convertAll s i es) .empty f := by
  cases h with
  | @entry before after _ k names t hes hbefore hnew =>
  refine ⟨k, fun i f hfails hreach => ?_⟩
  rw [fails_convertAll_iff, hes] at hreach ⊢
  have hbefore' : outcome (before.mapM (convertEntry s i)) .empty = (.ok names, t) := by
    refine ok_of_suffices (x := fun i => before.mapM (convertEntry s i))
      (fun hle => .mapM fun e _ => convertEntry_approximates hle e) hbefore ?_
    exact hreach.imp_right fun hgoes hstop => hgoes (fails_mapM_append hstop)
  rw [fails_mapM_iff]
  exact ⟨before, e, after, names, t, rfl, hbefore', (fails_defineOnce_iff hnew).mpr hfails⟩

/-- An import fails with a conversion that it has started, unless its bounds do not
suffice to get there. -/
theorem Opens.passes (h : Opens s es n) :
    ∃ j, ∀ i f, Fails (n.1.run s i) n.2 f →
      (j ≤ i ∨ ¬ Fails (convertAll s i es) .empty endless) → Fails (convertAll s i es) .empty f := by
  cases h with
  | property hbegins hasks =>
  obtain ⟨j, hj⟩ := hasks.passes
  obtain ⟨k, hk⟩ := hbegins.passes
  refine ⟨j ⊔ k, fun i f hfails hreach => hk i f (hj i f hfails ?_) ?_⟩
  · rcases hreach with hle | hgoes
    · exact Or.inl (le_sup_left.trans hle)
    · exact Or.inr fun hstop => hgoes (hk i _ hstop (Or.inr hgoes))
  · exact hreach.imp_left (le_sup_right.trans ·)

/-- No bounds suffice for a conversion that starts one for which none do. -/
theorem Starts.unbounded (h : Starts s m n) (hn : ∀ i, Fails (n.1.run s i) n.2 endless)
    (i : Nat × Nat) : Fails (m.1.run s i) m.2 endless := by
  obtain ⟨c, t⟩ := m
  obtain ⟨b, d⟩ := i
  cases d with
  | zero => exact fails_run_zero
  | succ d => exact Starts.stops (i := (b, d)) h (hn (b, d))

theorem Reached.unbounded (h : Reached s es m) (hm : ∀ i, Fails (m.1.run s i) m.2 endless)
    (i : Nat × Nat) : Fails (convertAll s i es) .empty endless := by
  obtain ⟨n, hopens, hstarts⟩ := h
  have hn : ∀ i, Fails (n.1.run s i) n.2 endless := by
    clear hopens
    induction hstarts using ReflTransGen.head_induction_on with
    | refl => exact hm
    | head hstart _ ih => exact hstart.unbounded ih
  obtain ⟨j, hj⟩ := hopens.passes
  by_contra hgoes
  exact hgoes (hj i _ (hn i) (Or.inr hgoes))

theorem Reached.fails (h : Reached s es m) (hf : f ≠ endless) (hm : Fails (m.1.run s i) m.2 f) :
    ∃ i, Fails (convertAll s i es) .empty f := by
  obtain ⟨n, hopens, hstarts⟩ := h
  obtain ⟨k, hk⟩ : ∃ k, Fails (n.1.run s k) n.2 f := by
    clear hopens
    induction hstarts using ReflTransGen.head_induction_on with
    | refl => exact ⟨i, hm⟩
    | @head m k hstart _ ih =>
      obtain ⟨i', hi'⟩ := ih
      obtain ⟨c, t⟩ := m
      exact hstart.fails_of hf hi'
  obtain ⟨j, hj⟩ := hopens.passes
  exact ⟨_, hj (k ⊔ j) f ((run_approximates le_sup_left n.1).fails hf hk) (Or.inl le_sup_right)⟩

theorem Begins.fails (h : Begins s es e t) {depth : Nat} (hf : f ≠ endless)
    (hparts : composed s.resolver depth [] e.target.schema e.target.context .empty = .error f) :
    ∃ i, Fails (convertAll s i es) .empty f := by
  obtain ⟨j, hj⟩ := h.passes
  have hle : (depth, 0) ≤ ((depth, 0) ⊔ j : Nat × Nat) := le_sup_left
  have hrecord := fails_record_of_composed (d := 0) h.valid hparts
  exact ⟨_, hj _ f ((recordWithin_approximates hle _ _ _).fails hf hrecord) (Or.inl le_sup_right)⟩

/-! ## What an import fails with -/

/-- A conversion that fails comes to one that fails by itself. -/
theorem exists_halting (hf : f ≠ endless) (ht : m.2.lookup.Valid s.resolver.loader)
    (h : Fails (m.1.run s i) m.2 f) : ∃ n, ReflTransGen (Starts s) m n ∧ Halts s n f := by
  obtain ⟨b, d⟩ := i
  induction d generalizing m with
  | zero => exact absurd (h.unique fails_run_zero) hf
  | succ d ih =>
    obtain ⟨c, t⟩ := m
    rcases halts_or_starts ht hf h with hhalts | ⟨n, hstarts, hn⟩
    · exact ⟨_, .refl, hhalts⟩
    · obtain ⟨k, hk, hhalts⟩ := ih ((hstarts.steps ht).valid ht) hn
      exact ⟨k, .head hstarts hk, hhalts⟩

/-- An import fails with an entry whose parts cannot be put together, or with a
conversion that fails by itself. -/
theorem fails_iff (hf : f ≠ endless) :
    (∃ i, Fails (convertAll s i es) .empty f) ↔
      (∃ e t depth, Begins s es e t ∧
        composed s.resolver depth [] e.target.schema e.target.context .empty = .error f) ∨
      ∃ m, Reached s es m ∧ Halts s m f := by
  constructor
  · rintro ⟨i, h⟩
    obtain ⟨before, e, after, names, t, hes, hbefore, he⟩ :=
      fails_mapM_iff.mp (fails_convertAll_iff.mp h)
    cases hknown : t.named.lookup (targetKey e.target) with
    | some name =>
      unfold Fails convertEntry at he
      rw [outcome_defineOnce, hknown] at he
      cases he
    | none =>
      have hbegins : Begins s es e t := .entry hes hbefore hknown
      rcases exists_asks_of_fails ((fails_defineOnce_iff hknown).mp he) with hstop | ⟨n, hasks, hn⟩
      · exact Or.inl ⟨e, t, i.1, hbegins, (fails_compose_iff hbegins.valid).mp hstop⟩
      · have hopens : Opens s es n := .property hbegins hasks
        obtain ⟨m, hm, hhalts⟩ := exists_halting hf hopens.valid hn
        exact Or.inr ⟨m, ⟨n, hopens, hm⟩, hhalts⟩
  · rintro (⟨e, t, depth, hbegins, hparts⟩ | ⟨m, hreached, hhalts⟩)
    · exact hbegins.fails hf hparts
    · obtain ⟨c, t⟩ := m
      obtain ⟨i, hi⟩ := hhalts.fails hreached.valid
      exact hreached.fails hf hi

/-- If no bounds suffice for an import whose entries can be put together, then for some
conversion that it starts none do. -/
theorem exists_opens_of_endless
    (hparts : ∀ e ∈ es, Assembles s.resolver [] e.target.schema e.target.context)
    (h : ∀ i, Fails (convertAll s i es) .empty endless) :
    ∃ n, Opens s es n ∧ ∀ i, Fails (n.1.run s i) n.2 endless := by
  simp only [fails_convertAll_iff] at h
  obtain ⟨before, e, after, i, names, t, hes, hbefore, he⟩ :=
    exists_stopping_item (f := fun i => convertEntry s i)
      (fun hle e => convertEntry_approximates hle e) h
  cases hknown : t.named.lookup (targetKey e.target) with
  | some name =>
    have hstop := he (0, 0)
    unfold Fails convertEntry at hstop
    rw [outcome_defineOnce, hknown] at hstop
    cases hstop
  | none =>
    have hbegins : Begins s es e t := .entry hes hbefore hknown
    obtain ⟨depth, hdepth⟩ := hparts e hbegins.mem
    obtain ⟨n, hasks, hn⟩ := exists_asks_of_endless (not_fails_of_assembles hbegins.valid hdepth)
      fun i => (fails_defineOnce_iff hknown).mp (he i)
    exact ⟨n, .property hbegins hasks, hn⟩

end RecordDefinitions.Schema
