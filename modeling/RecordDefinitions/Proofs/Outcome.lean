import Mathlib.Data.List.Forall2
import Mathlib.Logic.Relation
import Mathlib.Order.Lattice

/-!
# Outcomes of computations

A computation that may fail has a value or a failure; one that also keeps a state
ends in a state in both cases. The lemmas say how the outcome of a sequence, or of
the same computation on every item of a list, comes from the outcomes of its parts.
-/

namespace RecordDefinitions

section Results

variable {ε α β : Type}

theorem bind_eq_ok_iff {x : Except ε α} {f : α → Except ε β} {b : β} :
    (x >>= f) = .ok b ↔ ∃ a, x = .ok a ∧ f a = .ok b := by
  cases x <;> simp [bind, Except.bind]

theorem toOption_eq_some_iff {x : Except ε α} {a : α} : x.toOption = some a ↔ x = .ok a := by
  cases x <;> simp [Except.toOption]

/-- A value is there, and has a property, if evaluation says so. -/
theorem exists_ok_of_decide {x : Except ε α} {P : α → Prop} [DecidablePred P]
    (h : (x.toOption.any fun a => P a) = true) : ∃ a, x = .ok a ∧ P a := by
  cases x with
  | error => cases h
  | ok a => exact ⟨a, rfl, of_decide_eq_true h⟩

theorem exists_of_isOk {x : Except ε α} (h : x.isOk) : ∃ a, x = .ok a := by
  cases x with
  | error => cases h
  | ok a => exact ⟨a, rfl⟩

theorem bind_pure_eq_error_iff {x : Except ε α} {g : α → β} {e : ε} :
    (x >>= fun a => pure (g a)) = .error e ↔ x = .error e := by
  cases x <;> simp [bind, Except.bind, pure, Except.pure]

theorem map_eq_ok_iff {x : Except ε α} {f : α → β} {b : β} :
    f <$> x = .ok b ↔ ∃ a, x = .ok a ∧ f a = b := by
  cases x <;> simp [Functor.map, Except.map]

theorem bind_eq_error_iff {x : Except ε α} {f : α → Except ε β} {e : ε} :
    (x >>= f) = .error e ↔ x = .error e ∨ ∃ a, x = .ok a ∧ f a = .error e := by
  cases x <;> simp [bind, Except.bind]

theorem map_eq_error_iff {x : Except ε α} {f : α → β} {e : ε} :
    f <$> x = .error e ↔ x = .error e := by
  cases x <;> simp [Functor.map, Except.map]

theorem mapM_eq_ok_iff {f : α → Except ε β} {as : List α} {bs : List β} :
    as.mapM f = .ok bs ↔ List.Forall₂ (fun a b => f a = .ok b) as bs := by
  induction as generalizing bs with
  | nil =>
    rw [List.mapM_nil]
    constructor
    · intro h
      cases h
      exact .nil
    · rintro ⟨⟩
      rfl
  | cons a as ih =>
    rw [List.mapM_cons]
    constructor
    · intro h
      obtain ⟨b, hb, h⟩ := bind_eq_ok_iff.mp h
      obtain ⟨rest, hrest, h⟩ := bind_eq_ok_iff.mp h
      cases h
      exact .cons hb (ih.mp hrest)
    · rintro (_ | ⟨hb, hrest⟩)
      rw [bind_eq_ok_iff]
      refine ⟨_, hb, ?_⟩
      rw [bind_eq_ok_iff]
      exact ⟨_, ih.mpr hrest, rfl⟩

/-- In two lists that are related item by item, each item of the first has its partner. -/
theorem exists_of_forall₂_left {R : α → β → Prop} {as : List α} {bs : List β}
    (h : List.Forall₂ R as bs) : ∀ a ∈ as, ∃ b ∈ bs, R a b := by
  induction h with
  | nil => simp
  | @cons a b as bs hab _ ih =>
    intro c hc
    rcases List.mem_cons.mp hc with rfl | hc
    · exact ⟨b, List.mem_cons_self, hab⟩
    · obtain ⟨d, hd, hcd⟩ := ih c hc
      exact ⟨d, List.mem_cons_of_mem b hd, hcd⟩

/-- All items have a value if and only if each of them has one. -/
theorem exists_mapM_eq_ok_iff {f : α → Except ε β} {as : List α} :
    (∃ bs, as.mapM f = .ok bs) ↔ ∀ a ∈ as, ∃ b, f a = .ok b := by
  simp only [mapM_eq_ok_iff]
  induction as with
  | nil => exact ⟨fun _ => by simp, fun _ => ⟨[], .nil⟩⟩
  | cons a as ih =>
    rw [List.forall_mem_cons, ← ih]
    constructor
    · rintro ⟨_, _ | ⟨hb, hrest⟩⟩
      exact ⟨⟨_, hb⟩, ⟨_, hrest⟩⟩
    · rintro ⟨⟨b, hb⟩, ⟨rest, hrest⟩⟩
      exact ⟨b :: rest, .cons hb hrest⟩

/-- A list fails with one of its items. -/
theorem exists_of_mapM_error {f : α → Except ε β} {as : List α} {e : ε}
    (h : as.mapM f = .error e) : ∃ a ∈ as, f a = .error e := by
  induction as with
  | nil => cases h
  | cons a as ih =>
    rw [List.mapM_cons] at h
    cases ha : f a with
    | error e' =>
      rw [ha] at h
      cases h
      exact ⟨a, List.mem_cons_self, ha⟩
    | ok b =>
      cases hrest : as.mapM f with
      | error e' =>
        rw [ha, hrest] at h
        cases h
        obtain ⟨c, hc, he⟩ := ih hrest
        exact ⟨c, List.mem_cons_of_mem a hc, he⟩
      | ok bs =>
        rw [ha, hrest] at h
        cases h

/-- A fold fails with one of the items, after those before it have been taken. -/
theorem foldlM_eq_error_iff {γ : Type} {f : γ → α → Except ε γ} {as : List α} {c : γ} {e : ε} :
    as.foldlM f c = .error e ↔ ∃ before a after d, as = before ++ a :: after ∧
      before.foldlM f c = .ok d ∧ f d a = .error e := by
  constructor
  · intro h
    induction as generalizing c with
    | nil => cases h
    | cons a as ih =>
      rw [List.foldlM_cons] at h
      cases ha : f c a with
      | error e' =>
        rw [ha] at h
        cases h
        exact ⟨[], a, as, c, rfl, rfl, ha⟩
      | ok d =>
        rw [ha] at h
        obtain ⟨before, b, after, d', rfl, hbefore, hb⟩ := ih h
        refine ⟨a :: before, b, after, d', rfl, ?_, hb⟩
        rw [List.foldlM_cons, ha]
        exact hbefore
  · rintro ⟨before, a, after, d, rfl, hbefore, ha⟩
    rw [List.foldlM_append, hbefore]
    change (a :: after).foldlM f d = .error e
    rw [List.foldlM_cons, ha]
    rfl

theorem exists_of_foldlM_ok {γ : Type} {f : γ → α → Except ε γ} {as : List α} {c d : γ}
    (h : as.foldlM f c = .ok d) : ∀ a ∈ as, ∃ c' d', f c' a = .ok d' := by
  induction as generalizing c with
  | nil =>
    intro a ha
    cases ha
  | cons a as ih =>
    rw [List.foldlM_cons] at h
    obtain ⟨c', ha, hrest⟩ := bind_eq_ok_iff.mp h
    intro b hb
    rcases List.mem_cons.mp hb with rfl | hb
    · exact ⟨c, c', ha⟩
    · exact ih hrest b hb

/-- Where the failures of items do not depend on what was taken before, those of a fold
do not. -/
theorem foldlM_error_of_error {γ : Type} {f : γ → α → Except ε γ} {as : List α} {c : γ} {e : ε}
    (c' : γ) (hf : ∀ a c c' e, f c a = .error e → f c' a = .error e)
    (h : as.foldlM f c = .error e) : as.foldlM f c' = .error e := by
  induction as generalizing c c' with
  | nil => cases h
  | cons a as ih =>
    rw [List.foldlM_cons] at h ⊢
    cases ha : f c a with
    | error e' =>
      rw [ha] at h
      cases h
      rw [hf a c c' e ha]
      rfl
    | ok d =>
      rw [ha] at h
      cases ha' : f c' a with
      | error e' =>
        rw [hf a c' c e' ha'] at ha
        cases ha
      | ok d' => exact ih d' h

end Results

section States

variable {ε σ α β : Type}

/-- What a computation gives that starts in a state, and the state it ends in. -/
def outcome (x : ExceptT ε (StateM σ) α) (s : σ) : Except ε α × σ := x.run.run s

@[simp] theorem outcome_pure (a : α) (s : σ) :
    outcome (pure a : ExceptT ε (StateM σ) α) s = (.ok a, s) := rfl

@[simp] theorem outcome_throw (e : ε) (s : σ) :
    outcome (throw e : ExceptT ε (StateM σ) α) s = (.error e, s) := rfl

@[simp] theorem outcome_get (s : σ) :
    outcome (get : ExceptT ε (StateM σ) σ) s = (.ok s, s) := rfl

@[simp] theorem outcome_modify (f : σ → σ) (s : σ) :
    outcome (modify f : ExceptT ε (StateM σ) PUnit) s = (.ok ⟨⟩, f s) := rfl

/-- A computation that keeps no state of its own. -/
@[simp] theorem outcome_liftM (x : Except ε α) (s : σ) :
    outcome (liftM x : ExceptT ε (StateM σ) α) s = (x, s) := rfl

theorem outcome_bind (x : ExceptT ε (StateM σ) α) (f : α → ExceptT ε (StateM σ) β) (s : σ) :
    outcome (x >>= f) s =
      match outcome x s with
      | (.ok a, t) => outcome (f a) t
      | (.error e, t) => (.error e, t) := by
  simp only [outcome, ExceptT.run_bind, StateT.run_bind]
  rcases x.run.run s with ⟨_ | a, t⟩ <;> rfl

theorem outcome_bind_of_ok {x : ExceptT ε (StateM σ) α} {f : α → ExceptT ε (StateM σ) β}
    {s t : σ} {a : α} (h : outcome x s = (.ok a, t)) :
    outcome (x >>= f) s = outcome (f a) t := by
  rw [outcome_bind, h]

theorem outcome_bind_eq_ok_iff {x : ExceptT ε (StateM σ) α} {f : α → ExceptT ε (StateM σ) β}
    {s u : σ} {b : β} :
    outcome (x >>= f) s = (.ok b, u) ↔
      ∃ a t, outcome x s = (.ok a, t) ∧ outcome (f a) t = (.ok b, u) := by
  rw [outcome_bind]
  rcases outcome x s with ⟨_ | a, t⟩
  · simp
  · constructor
    · intro h
      exact ⟨a, t, rfl, h⟩
    · rintro ⟨_, _, h, hf⟩
      cases h
      exact hf

/-- A computation gives a value, and the value has a property, if evaluation says so. -/
theorem exists_outcome_of_decide {x : ExceptT ε (StateM σ) α} {s : σ} {P : α → Prop}
    [DecidablePred P] (h : ((outcome x s).1.toOption.any fun a => P a) = true) :
    ∃ a t, outcome x s = (.ok a, t) ∧ P a := by
  obtain ⟨a, ha, hp⟩ := exists_ok_of_decide h
  exact ⟨a, (outcome x s).2, Prod.ext ha rfl, hp⟩

/-- The computation ends in a failure. -/
def Fails (x : ExceptT ε (StateM σ) α) (s : σ) (e : ε) : Prop := (outcome x s).1 = .error e

theorem not_fails_of_ok {x : ExceptT ε (StateM σ) α} {s t : σ} {a : α} {e : ε}
    (h : outcome x s = (.ok a, t)) : ¬ Fails x s e := by
  simp [Fails, h]

/-- A computation fails in one way or gives a value. -/
theorem exists_outcome (x : ExceptT ε (StateM σ) α) (s : σ) :
    (∃ e, Fails x s e) ∨ ∃ a t, outcome x s = (.ok a, t) := by
  unfold Fails
  rcases outcome x s with ⟨e | a, t⟩
  · exact Or.inl ⟨e, rfl⟩
  · exact Or.inr ⟨a, t, rfl⟩

theorem Fails.unique {x : ExceptT ε (StateM σ) α} {s : σ} {e e' : ε} (h : Fails x s e)
    (h' : Fails x s e') : e = e' :=
  Except.error.inj (h.symm.trans h')

/-- A sequence fails in its first part, or after it in the second. -/
theorem fails_bind_iff {x : ExceptT ε (StateM σ) α} {f : α → ExceptT ε (StateM σ) β} {s : σ}
    {e : ε} :
    Fails (x >>= f) s e ↔ Fails x s e ∨ ∃ a t, outcome x s = (.ok a, t) ∧ Fails (f a) t e := by
  unfold Fails
  rw [outcome_bind]
  rcases outcome x s with ⟨e' | a, t⟩
  · simp
  · constructor
    · intro h
      exact Or.inr ⟨a, t, rfl, h⟩
    · rintro (h | ⟨_, _, h, hf⟩)
      · cases h
      · cases h
        exact hf

theorem fails_bind_pure_iff {x : ExceptT ε (StateM σ) α} {f : α → β} {s : σ} {e : ε} :
    Fails (x >>= fun a => pure (f a)) s e ↔ Fails x s e := by
  rw [fails_bind_iff]
  constructor
  · rintro (h | ⟨a, t, _, h⟩)
    · exact h
    · cases h
  · exact Or.inl

/-! ## The same computation on every item of a list -/

variable {f : α → ExceptT ε (StateM σ) β}

theorem outcome_mapM_append {before after : List α} {s t : σ} {bs : List β}
    (h : outcome (before.mapM f) s = (.ok bs, t)) :
    outcome ((before ++ after).mapM f) s = outcome (after.mapM f >>= fun cs => pure (bs ++ cs)) t := by
  rw [List.mapM_append, outcome_bind_of_ok h]

/-- What a list of computations gives, item by item. -/
theorem forall₂_of_outcome_mapM {as : List α} {s t : σ} {bs : List β}
    (h : outcome (as.mapM f) s = (.ok bs, t)) :
    List.Forall₂ (fun a b => ∃ u v, outcome (f a) u = (.ok b, v)) as bs := by
  induction as generalizing s bs with
  | nil =>
    cases h
    exact .nil
  | cons a as ih =>
    rw [List.mapM_cons] at h
    obtain ⟨b, u, hb, hrest⟩ := outcome_bind_eq_ok_iff.mp h
    obtain ⟨rest, v, hrest, hlast⟩ := outcome_bind_eq_ok_iff.mp hrest
    cases hlast
    exact .cons ⟨s, u, hb⟩ (ih hrest)

/-- The first item that fails decides about the list. -/
theorem fails_mapM_iff {as : List α} {s : σ} {e : ε} :
    Fails (as.mapM f) s e ↔ ∃ before a after bs t, as = before ++ a :: after ∧
      outcome (before.mapM f) s = (.ok bs, t) ∧ Fails (f a) t e := by
  constructor
  · intro h
    induction as generalizing s with
    | nil => simp [Fails] at h
    | cons a as ih =>
      rw [List.mapM_cons, fails_bind_iff] at h
      rcases h with h | ⟨b, t, hb, h⟩
      · exact ⟨[], a, as, [], s, rfl, rfl, h⟩
      · obtain ⟨before, c, after, bs, u, rfl, hbefore, hc⟩ := ih (fails_bind_pure_iff.mp h)
        refine ⟨a :: before, c, after, b :: bs, u, rfl, ?_, hc⟩
        rw [List.mapM_cons, outcome_bind_of_ok hb, outcome_bind_of_ok hbefore]
        rfl
  · rintro ⟨before, a, after, bs, t, rfl, hbefore, ha⟩
    unfold Fails
    rw [outcome_mapM_append hbefore]
    change Fails _ _ _
    rw [fails_bind_pure_iff, List.mapM_cons, fails_bind_iff]
    exact Or.inl ha

theorem fails_mapM_append {before after : List α} {s : σ} {e : ε}
    (h : Fails (before.mapM f) s e) : Fails ((before ++ after).mapM f) s e := by
  rw [List.mapM_append, fails_bind_iff]
  exact Or.inl h

/-- Where every item of a list has a value, it was reached after those before it. -/
theorem exists_of_mapM_ok {before after : List α} {a : α} {s u : σ} {bs : List β}
    (h : outcome ((before ++ a :: after).mapM f) s = (.ok bs, u)) :
    ∃ cs t b t' ds, outcome (before.mapM f) s = (.ok cs, t) ∧ outcome (f a) t = (.ok b, t') ∧
      outcome (after.mapM f) t' = (.ok ds, u) := by
  rw [List.mapM_append] at h
  obtain ⟨cs, t, hbefore, h⟩ := outcome_bind_eq_ok_iff.mp h
  obtain ⟨rest, v, h, hrest⟩ := outcome_bind_eq_ok_iff.mp h
  cases hrest
  rw [List.mapM_cons] at h
  obtain ⟨b, t', ha, h⟩ := outcome_bind_eq_ok_iff.mp h
  obtain ⟨ds, w, hafter, hw⟩ := outcome_bind_eq_ok_iff.mp h
  cases hw
  exact ⟨cs, t, b, t', ds, hbefore, ha, hafter⟩

/-- Going through a list for its effects only. -/
theorem forM_discard {as : List α} :
    as.forM (fun a => f a >>= fun _ => pure PUnit.unit) =
      as.mapM f >>= fun _ => pure PUnit.unit := by
  induction as with
  | nil => simp
  | cons a as ih =>
    have hcons : (a :: as).forM (fun a => f a >>= fun _ => pure PUnit.unit) =
        (f a >>= fun _ => pure PUnit.unit) >>= fun _ =>
          as.forM (fun a => f a >>= fun _ => pure PUnit.unit) := rfl
    rw [hcons, ih, List.mapM_cons]
    simp only [bind_assoc, pure_bind]

end States

/-! ## Computations with a bound -/

section Bounds

variable {ε σ α β : Type} {stop : ε}

/-- The first computation stops, or does what the second one does. -/
def Approximates (stop : ε) (x y : ExceptT ε (StateM σ) α) : Prop :=
  ∀ s, Fails x s stop ∨ outcome x s = outcome y s

namespace Approximates

variable {x y z : ExceptT ε (StateM σ) α}

theorem refl (x : ExceptT ε (StateM σ) α) : Approximates stop x x := fun _ => Or.inr rfl

theorem of_stop : Approximates stop (throw stop) x := fun _ => Or.inl rfl

theorem bind {f g : α → ExceptT ε (StateM σ) β} (hxy : Approximates stop x y)
    (hfg : ∀ a, Approximates stop (f a) (g a)) : Approximates stop (x >>= f) (y >>= g) := by
  intro s
  rcases hxy s with h | h
  · exact Or.inl (fails_bind_iff.mpr (Or.inl h))
  · unfold Fails
    rw [outcome_bind, outcome_bind, h]
    rcases outcome y s with ⟨e | a, t⟩
    · exact Or.inr rfl
    · exact hfg a t

theorem mapM {f g : α → ExceptT ε (StateM σ) β} {as : List α}
    (h : ∀ a ∈ as, Approximates stop (f a) (g a)) :
    Approximates stop (as.mapM f) (as.mapM g) := by
  induction as with
  | nil => exact refl _
  | cons a as ih =>
    rw [List.mapM_cons, List.mapM_cons]
    refine (h a List.mem_cons_self).bind fun b => ?_
    exact (ih fun c hc => h c (List.mem_cons_of_mem a hc)).bind fun bs => refl _

theorem ok (h : Approximates stop x y) {s t : σ} {a : α} (hx : outcome x s = (.ok a, t)) :
    outcome y s = (.ok a, t) := by
  rcases h s with hstop | hsame
  · exact absurd hstop (not_fails_of_ok hx)
  · rw [← hsame, hx]

theorem fails (h : Approximates stop x y) {s : σ} {e : ε} (he : e ≠ stop) (hx : Fails x s e) :
    Fails y s e := by
  rcases h s with hstop | hsame
  · exact absurd (hx.unique hstop) he
  · unfold Fails
    rw [← hsame]
    exact hx

theorem stops (h : Approximates stop x y) {s : σ} (hy : Fails y s stop) : Fails x s stop := by
  rcases h s with hstop | hsame
  · exact hstop
  · unfold Fails
    rw [hsame]
    exact hy

/-- Where the first computation goes on, it gives what the second one gives. -/
theorem ok_of_not_stops (h : Approximates stop x y) {s t : σ} {a : α}
    (hy : outcome y s = (.ok a, t)) (hx : ¬ Fails x s stop) : outcome x s = (.ok a, t) := by
  rcases h s with hstop | hsame
  · exact absurd hstop hx
  · rw [hsame, hy]

end Approximates

/-- What a computation gives under some bound it gives under another one that is greater,
or that suffices for it. -/
theorem ok_of_suffices {ι : Type} [SemilatticeSup ι] {x : ι → ExceptT ε (StateM σ) α} {i j : ι}
    (hx : ∀ {i k : ι}, i ≤ k → Approximates stop (x i) (x k)) {s t : σ} {a : α}
    (hj : outcome (x j) s = (.ok a, t)) (hi : j ≤ i ∨ ¬ Fails (x i) s stop) :
    outcome (x i) s = (.ok a, t) := by
  rcases hi with hle | hgoes
  · exact (hx hle).ok hj
  · exact (hx le_sup_left).ok_of_not_stops ((hx le_sup_right).ok hj) hgoes

/-- Under all bounds that suffice, a computation gives the same. -/
theorem ok_unique {ι : Type} [SemilatticeSup ι] {x : ι → ExceptT ε (StateM σ) α} {i j : ι}
    (hx : ∀ {i k : ι}, i ≤ k → Approximates stop (x i) (x k)) {s t u : σ} {a b : α}
    (hi : outcome (x i) s = (.ok a, t)) (hj : outcome (x j) s = (.ok b, u)) : a = b ∧ t = u := by
  have hsame := (hx (le_sup_left (b := j))).ok hi
  rw [(hx le_sup_right).ok hj] at hsame
  cases hsame
  exact ⟨rfl, rfl⟩

/-- Where a list succeeds under a greater bound, its items before some item lead to that
item as they did under the smaller one. -/
theorem exists_of_mapM_ok_of_approximates {f g : α → ExceptT ε (StateM σ) β}
    (happrox : ∀ a, Approximates stop (f a) (g a)) {before after : List α} {a : α} {s t u : σ}
    {bs cs : List β} (hbefore : outcome (before.mapM f) s = (.ok bs, t))
    (h : outcome ((before ++ a :: after).mapM g) s = (.ok cs, u)) :
    ∃ b t' ds, outcome (g a) t = (.ok b, t') ∧ outcome (after.mapM g) t' = (.ok ds, u) := by
  obtain ⟨bs', t₀, b, t', ds, hbefore', ha, hafter⟩ := exists_of_mapM_ok h
  have hsame := (Approximates.mapM fun a _ => happrox a).ok hbefore
  rw [hbefore'] at hsame
  cases hsame
  exact ⟨b, t', ds, ha, hafter⟩

/-- If a list is never done with, whatever the bound, then one of its items never is,
and everything before that item has values under some bound. -/
theorem exists_stopping_item {ι : Type} [SemilatticeSup ι] [Nonempty ι]
    {f : ι → α → ExceptT ε (StateM σ) β} {as : List α} {s : σ}
    (hf : ∀ {i k : ι}, i ≤ k → ∀ a, Approximates stop (f i a) (f k a))
    (h : ∀ i, Fails (as.mapM (f i)) s stop) :
    ∃ before a after i bs t, as = before ++ a :: after ∧
      outcome (before.mapM (f i)) s = (.ok bs, t) ∧ ∀ j, Fails (f j a) t stop := by
  have hlist {i k : ι} (hle : i ≤ k) {as : List α} :
      Approximates stop (as.mapM (f i)) (as.mapM (f k)) := .mapM fun a _ => hf hle a
  induction as generalizing s with
  | nil =>
    have hnil := h (Classical.arbitrary ι)
    simp [Fails] at hnil
  | cons a as ih =>
    by_cases ha : ∀ i, Fails (f i a) s stop
    · exact ⟨[], a, as, Classical.arbitrary ι, [], s, rfl, rfl, ha⟩
    · obtain ⟨i, hi⟩ := not_forall.mp ha
      rcases exists_outcome (f i a) s with ⟨e, he⟩ | ⟨b, t, hb⟩
      · have hne : e ≠ stop := by
          rintro rfl
          exact hi he
        have hfirst : Fails ((a :: as).mapM (f i)) s e := by
          rw [List.mapM_cons, fails_bind_iff]
          exact Or.inl he
        exact absurd (hfirst.unique (h i)) hne
      · have hrest (j : ι) : Fails (as.mapM (f j)) t stop := by
          have hwhole := h (i ⊔ j)
          rw [List.mapM_cons, fails_bind_iff] at hwhole
          have hb' := (hf (le_sup_left (b := j)) a).ok hb
          refine (hlist (le_sup_right (a := i))).stops ?_
          rcases hwhole with hstop | ⟨b', t', hb'', hstop⟩
          · exact absurd hstop (not_fails_of_ok hb')
          · rw [hb'] at hb''
            cases hb''
            exact fails_bind_pure_iff.mp hstop
        obtain ⟨before, c, after, j, bs, u, rfl, hbefore, hc⟩ := ih hrest
        refine ⟨a :: before, c, after, i ⊔ j, b :: bs, u, rfl, ?_, hc⟩
        have hb' := (hf (le_sup_left (b := j)) a).ok hb
        have hbefore' := (hlist (le_sup_right (a := i))).ok hbefore
        rw [List.mapM_cons, outcome_bind_of_ok hb', outcome_bind_of_ok hbefore']
        rfl

end Bounds

end RecordDefinitions
