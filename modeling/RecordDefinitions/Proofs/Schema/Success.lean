import RecordDefinitions.Proofs.Schema.Reach

/-!
# What a successful import has converted

Where an import succeeds everything that it has started has succeeded, and the names
that targets got on the way are theirs in the end.
-/

namespace RecordDefinitions.Schema

open Relation Progress

/-- A conversion succeeds and ends in a certain progress. -/
def Ends (s : Setting) (m : Call × Progress) (u : Progress) : Prop :=
  ∃ i a, outcome (m.1.run s i) m.2 = (.ok a, u)

variable {s : Setting} {es : List Entry} {m n : Call × Progress} {i : Nat × Nat}
  {t u : Progress}

/-- A record that succeeds has succeeded with the properties that it asks for. -/
theorem Asks.ends {trail : Trail} {schema : Document} {context : ReferenceContext}
    {d : Declaration} (h : Asks s trail schema context t n)
    (ht : t.lookup.Valid s.resolver.loader)
    (hrecord : outcome (recordWithin s i trail schema context) t = (.ok d, u)) :
    ∃ v, Ends s n v ∧ v.Keeps u := by
  have hn := (h.steps ht).valid ht
  cases h with
  | @property w v depth comp before after p j fields hcompose hprops hbefore =>
  let k := i ⊔ (depth, 0) ⊔ j
  have hik : i ≤ k := le_sup_left.trans le_sup_left
  have hdepth : depth ≤ k.1 := (Nat.le_max_right i.1 depth).trans (Nat.le_max_left _ j.1)
  have hlarge := (recordWithin_approximates hik _ _ _).ok hrecord
  rw [recordWithin_eq] at hlarge
  obtain ⟨comp', w', hcomp, hrest⟩ := outcome_bind_eq_ok_iff.mp hlarge
  rw [(compose_mono hdepth _ _ _ _).ok hcompose] at hcomp
  cases hcomp
  obtain ⟨all, w', hfields, hlast⟩ := outcome_bind_eq_ok_iff.mp hrest
  cases hlast
  rw [hprops] at hfields
  obtain ⟨field, v', rest, hfield, hafter⟩ := exists_of_mapM_ok_of_approximates
    (fun p => namedField_approximates le_sup_right trail comp p) hbefore hfields
  obtain ⟨f, v'', hconvert, hlast⟩ := outcome_bind_eq_ok_iff.mp hfield
  cases hlast
  obtain ⟨type, v'', hrun, hlast⟩ := outcome_bind_eq_ok_iff.mp hconvert
  cases hlast
  have hvalid := ((moves_namedField k trail comp p).steps hn hfield).valid hn
  exact ⟨v', ⟨k, type, hrun⟩,
    ((Moves.mapM fun p _ => moves_namedField k trail comp p).steps hvalid hafter).keeps⟩

/-- A definition that succeeds has succeeded with the properties that it asks for. -/
theorem Asks.ends_of_define {trail : Trail} {schema : Document} {context : ReferenceContext}
    {name a : String} (h : Asks s trail schema context t n)
    (ht : t.lookup.Valid s.resolver.loader)
    (hdefine : outcome (define (s.within i.1) (fieldWithin s i) trail name schema context >>=
      fun _ => Pure.pure name) t = (.ok a, u)) :
    ∃ v, Ends s n v ∧ v.Keeps u := by
  obtain ⟨d, w, hrecord, -, rfl⟩ := outcome_define_ok_iff.mp hdefine
  obtain ⟨v, hends, hkeeps⟩ := h.ends ht hrecord
  exact ⟨v, hends, hkeeps⟩

/-- A conversion that succeeds has succeeded with those that it starts. -/
theorem Starts.ends (h : Starts s m n) (hm : m.2.lookup.Valid s.resolver.loader)
    (hends : Ends s m u) : ∃ v, Ends s n v ∧ v.Keeps u := by
  have hn := (h.steps hm).valid hm
  obtain ⟨c, t⟩ := m
  obtain ⟨i, a, hrun⟩ := hends
  have hlarge (j : Nat × Nat) : ∃ k, j ≤ k ∧ ∃ w, outcome ((form c.schema).convert
      (s.within k.1) (fieldWithin s k) c.trail c.schema c.hint c.context) t = (.ok w, u) := by
    refine ⟨i ⊔ j, le_sup_right, ?_⟩
    have hle : i ≤ ((i ⊔ j).1, (i ⊔ j).2 + 1) :=
      ⟨Nat.le_max_left i.1 j.1, (Nat.le_max_left i.2 j.2).trans (Nat.le_succ _)⟩
    obtain ⟨w, hw, -⟩ := outcome_run_ok_iff.mp ((run_approximates hle c).ok hrun)
    exact ⟨w, hw⟩
  rcases h with h | h
  · cases h with
    | @piece _ _ v before after whole schema rename wrap j types hform hbefore =>
      obtain ⟨k, hjk, w, hw⟩ := hlarge j
      rw [hform] at hw
      obtain ⟨all, u', hpieces, hlast⟩ := outcome_bind_eq_ok_iff.mp hw
      cases hlast
      obtain ⟨type, v', rest, hpiece, hafter⟩ := exists_of_mapM_ok_of_approximates
        (fun p => piece_approximates hjk _ _ _ p) hbefore hpieces
      obtain ⟨inner, v'', hinner, hlast⟩ := outcome_bind_eq_ok_iff.mp hpiece
      cases hlast
      have hvalid := ((moves_piece k _ _ _ _).steps hn hpiece).valid hn
      exact ⟨v', ⟨k, inner, hinner⟩,
        ((Moves.mapM fun p _ => moves_piece k _ _ _ p).steps hvalid hafter).keeps⟩
    | property hform hasks =>
      obtain ⟨k, -, w, hw⟩ := hlarge i
      rw [hform] at hw
      obtain ⟨name, u', hdefine, hlast⟩ := outcome_bind_eq_ok_iff.mp hw
      cases hlast
      exact hasks.ends_of_define (t := t.reserving s.options c.hint) hm hdefine
  · cases h with
    | inPlace hform htarget hrecord henter =>
      obtain ⟨k, -, w, hw⟩ := hlarge i
      rw [hform, Form.convert, outcome_typeOfReference htarget, if_neg hrecord, henter] at hw
      exact ⟨u, ⟨k, w, hw⟩, .refl u⟩
    | property hform htarget hrecord hnew hasks =>
      obtain ⟨k, -, w, hw⟩ := hlarge i
      rw [hform, Form.convert, outcome_typeOfReference htarget, if_pos hrecord] at hw
      obtain ⟨name, u', hdefine, hlast⟩ := outcome_bind_eq_ok_iff.mp hw
      cases hlast
      have hvalid := ((moves_target _ _).steps hm htarget).valid hm
      rw [targetDefinition_eq, outcome_defineOnce, hnew] at hdefine
      exact hasks.ends_of_define (t := Progress.naming _ _ _ _) hvalid hdefine

variable {e : Entry} {names : List String}

/-- An import that succeeds has succeeded with every entry that it has come to. -/
theorem exists_of_convertAll_ok {before after : List Entry} {j : Nat × Nat}
    (hes : es = before ++ e :: after)
    (hbefore : outcome (before.mapM (convertEntry s j)) .empty = (.ok names, t))
    (h : outcome (convertAll s i es) .empty = (.ok ⟨⟩, u)) :
    ∃ k, j ≤ k ∧ ∃ name v, outcome (convertEntry s k e) t = (.ok name, v) ∧ v.Keeps u := by
  have hlarge := (convertAll_approximates (le_sup_left (b := j)) es).ok h
  obtain ⟨all, u', hentries, hlast⟩ := outcome_bind_eq_ok_iff.mp hlarge
  cases hlast
  rw [hes] at hentries
  obtain ⟨name, v, rest, he, hafter⟩ := exists_of_mapM_ok_of_approximates
    (fun e => convertEntry_approximates le_sup_right e) hbefore hentries
  have ht := valid_of_entries hbefore
  have hv := ((moves_convertEntry (i ⊔ j) e).steps ht he).valid ht
  exact ⟨i ⊔ j, le_sup_right, name, v, he,
    ((Moves.mapM fun e _ => moves_convertEntry _ e).steps hv hafter).keeps⟩

/-- An import that succeeds has succeeded with everything that it has reached. -/
theorem Reached.ends (h : Reached s es m) (hall : outcome (convertAll s i es) .empty = (.ok ⟨⟩, u)) :
    ∃ v, Ends s m v ∧ v.Keeps u := by
  obtain ⟨n, hopens, hstarts⟩ := h
  have hfirst : ∃ v, Ends s n v ∧ v.Keeps u := by
    cases hopens with
    | property hbegins hasks =>
      have hvalid := hbegins.valid
      cases hbegins with
      | entry hes hbefore hnew =>
        obtain ⟨k, -, name, v, he, hkeeps⟩ := exists_of_convertAll_ok hes hbefore hall
        unfold convertEntry at he
        rw [outcome_defineOnce, hnew] at he
        obtain ⟨w, hends, hkeeps'⟩ := hasks.ends_of_define hvalid he
        exact ⟨w, hends, hkeeps'.trans hkeeps⟩
  suffices hm : m.2.lookup.Valid s.resolver.loader ∧ ∃ v, Ends s m v ∧ v.Keeps u from hm.2
  induction hstarts with
  | refl => exact ⟨hopens.valid, hfirst⟩
  | tail _ hlast ih =>
    obtain ⟨hvalid, v, hends, hkeeps⟩ := ih
    obtain ⟨w, hends', hkeeps'⟩ := hlast.ends hvalid hends
    exact ⟨(hlast.steps hvalid).valid hvalid, w, hends', hkeeps'.trans hkeeps⟩

end RecordDefinitions.Schema
