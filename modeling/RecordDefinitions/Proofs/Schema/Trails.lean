import RecordDefinitions.Proofs.Schema.Bounds

/-!
# Following fewer references

The references that are being followed only serve to find cycles. So a conversion that succeeds
does the same while fewer of them are being followed: it never meets a target a second time.
-/

namespace RecordDefinitions.Schema

/-! ## What carries over -/

/-- Where the first computation has a value, the second one has it as well and ends in the same
state. -/
def CarriesOver {α : Type} (x y : Convert α) : Prop :=
  ∀ t a u, outcome x t = (.ok a, u) → outcome y t = (.ok a, u)

namespace CarriesOver

variable {α β : Type} {x y : Convert α}

theorem refl (x : Convert α) : CarriesOver x x := fun _ _ _ h => h

theorem bind {f g : α → Convert β} (hxy : CarriesOver x y)
    (hfg : ∀ a, CarriesOver (f a) (g a)) : CarriesOver (x >>= f) (y >>= g) := by
  intro t b u h
  obtain ⟨a, v, hx, hf⟩ := outcome_bind_eq_ok_iff.mp h
  rw [outcome_bind_of_ok (hxy t a v hx)]
  exact hfg a v b u hf

theorem congruence : Congruence fun _ (x y : Convert _) => CarriesOver x y where
  refl := refl
  bind := bind

end CarriesOver

/-! ## Trails -/

/-- Every target that is being followed in the first trail is being followed in the second. -/
def Trail.Within (small large : Trail) : Prop := small.keys ⊆ large.keys

variable {s : Setting} {small large : Trail}

theorem Trail.within_append (trail more : Trail) : trail.Within (trail ++ more) := by
  intro key hkey
  rw [Trail.keys, List.map_append]
  exact List.mem_append_left _ hkey

theorem Trail.Within.append (h : small.Within large) (more : Trail) :
    (small ++ more).Within (large ++ more) := by
  intro key hkey
  rw [Trail.keys, List.map_append, List.mem_append] at hkey ⊢
  exact hkey.imp_left fun hm => h hm

/-- A target that is entered over a trail is entered over a smaller one. -/
theorem Trail.Within.enter {α : Type} (h : small.Within large) {key : TargetKey}
    {reference : String} {f g : Trail → Convert α}
    (hfg : ∀ {small large : Trail}, small.Within large → CarriesOver (f large) (g small)) :
    CarriesOver (ofExcept (large.enter key reference) >>= f)
      (ofExcept (small.enter key reference) >>= g) := by
  by_cases hkey : key ∈ large.keys
  · have hclosed : ∃ e, large.enter key reference = .error e := ⟨_, if_pos hkey⟩
    obtain ⟨e, he⟩ := hclosed
    intro t a u hok
    rw [he] at hok
    cases hok
  · rw [Trail.enter, if_neg hkey, Trail.enter, if_neg fun hm => hkey (h hm)]
    exact hfg (h.append _)

theorem carriesOver_compose (h : small.Within large) (depth : Nat) (schema : Document)
    (context : ReferenceContext) (c : Composition) :
    CarriesOver (compose s depth large schema context c)
      (compose s depth small schema context c) := by
  induction depth generalizing small large schema context c with
  | zero => exact .refl _
  | succ depth ih =>
    rw [compose, compose]
    cases schema.string? "$ref" with
    | some r =>
      exact CarriesOver.bind (.refl _) fun x => h.enter fun h => ih h x.schema x.context c
    | none =>
      have hparts := fun c part => ih h part context c
      exact CarriesOver.bind (CarriesOver.congruence.foldlM _ c hparts) fun c => .refl _

/-- The conversion of a field that succeeds does the same while fewer references are being
followed. -/
theorem carriesOver_fieldType (h : small.Within large) (depth : Nat) (schema : Document)
    (hint : String) (context : ReferenceContext) :
    CarriesOver (fieldType s depth large schema hint context)
      (fieldType s depth small schema hint context) := by
  induction depth generalizing small large schema hint context with
  | zero => exact .refl _
  | succ depth ih =>
    rw [fieldType_succ, fieldType_succ]
    refine CarriesOver.bind ?_ fun _ => .refl _
    refine CarriesOver.congruence.form (b := s.bound) (ih h) ?_ ?_ schema hint context _
    · exact fun schema context => carriesOver_compose h _ schema context .empty
    · exact fun x _ hint => h.enter fun h => ih h x.schema hint x.context

end RecordDefinitions.Schema
