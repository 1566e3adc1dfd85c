import Mathlib.Data.List.Perm.Subperm
import RecordDefinitions.Inheritance.Chain
import RecordDefinitions.Proofs.Outcome

/-!
# Ancestors

The chain of a name exists if and only if following parents from it meets
registered names only and repeats none, and it then lists the ancestors. The search
along the chain is bounded by the number of definitions; the bound is never the
reason why it stops.
-/

namespace RecordDefinitions.Registry

open Relation

/-- `parent` is the name that the definition of `child` gives as its parent. -/
def IsParent (r : Registry) (child parent : String) : Prop := r.parentOf? child = some parent

/-- Following parents from a name meets registered names only and repeats none. -/
def Rooted (r : Registry) (name : String) : Prop :=
  ∀ ancestor, ReflTransGen r.IsParent name ancestor →
    r.contains ancestor ∧ ¬ TransGen r.IsParent ancestor ancestor

/-- The ancestors of a registered name, the nearest one first. -/
inductive Ascends (r : Registry) : String → List String → Prop
  | root {name : String} {d : Definition} :
    r.find? name = some d → d.parent = none → Ascends r name []
  | step {name parent : String} {d : Definition} {rest : List String} :
    r.find? name = some d → d.parent = some parent → Ascends r parent rest →
      Ascends r name (parent :: rest)

variable {r : Registry}

theorem name_of_find? {name : String} {d : Definition} (h : r.find? name = some d) :
    d.name = name :=
  (Catalogue.find?_eq_some_iff.mp h).2

theorem find?_of_mem {d : Definition} (h : d ∈ r.toList) : r.find? d.name = some d :=
  Catalogue.find?_of_mem h

theorem isParent_of_find? {name parent : String} {d : Definition} (h : r.find? name = some d)
    (hp : d.parent = some parent) : r.IsParent name parent := by
  simp [IsParent, parentOf?, h, hp]

theorem get_of_find? {name : String} {d : Definition} (h : r.find? name = some d) :
    r.get name = .ok d := by
  simp [get, h]

theorem get_eq_ok_iff {name : String} {d : Definition} :
    r.get name = .ok d ↔ r.find? name = some d := by
  cases h : r.find? name <;> simp [get, h]

/-! ## Rooted names -/

theorem Rooted.contains {name : String} (h : r.Rooted name) : r.contains name :=
  (h name .refl).1

theorem Rooted.parent {child parent : String} (h : r.Rooted child)
    (hp : r.IsParent child parent) : r.Rooted parent :=
  fun ancestor ha => h ancestor (.head hp ha)

theorem Ascends.contains {name : String} {ancestors : List String}
    (h : r.Ascends name ancestors) : r.contains name := by
  cases h with
  | root hd _ => exact Catalogue.contains_of_find? hd
  | step hd _ _ => exact Catalogue.contains_of_find? hd

theorem Ascends.unique {name : String} {xs ys : List String} (hx : r.Ascends name xs)
    (hy : r.Ascends name ys) : xs = ys := by
  induction hx generalizing ys with
  | root hd hp =>
    cases hy with
    | root => rfl
    | step hd' hp' _ => simp_all
  | step hd hp _ ih =>
    cases hy with
    | root hd' hp' => simp_all
    | step hd' hp' hrest =>
      rw [hd] at hd'
      cases hd'
      rw [hp] at hp'
      cases hp'
      rw [ih hrest]

/-- An ancestor has the ancestors that come after it. -/
theorem Ascends.suffix {name ancestor : String} {ancestors : List String}
    (h : r.Ascends name ancestors) (ha : TransGen r.IsParent name ancestor) :
    ∃ rest, r.Ascends ancestor rest ∧ rest.length < ancestors.length := by
  induction ha using TransGen.head_induction_on generalizing ancestors with
  | single hp =>
    cases h with
    | root hd hnone => simp [IsParent, parentOf?, hd, hnone] at hp
    | step hd hsome hrest =>
      simp only [IsParent, parentOf?, hd, Option.bind_some, hsome, Option.some.injEq] at hp
      subst hp
      exact ⟨_, hrest, by simp⟩
  | head hp _ ih =>
    cases h with
    | root hd hnone => simp [IsParent, parentOf?, hd, hnone] at hp
    | step hd hsome hrest =>
      simp only [IsParent, parentOf?, hd, Option.bind_some, hsome, Option.some.injEq] at hp
      subst hp
      obtain ⟨rest, hr, hlen⟩ := ih hrest
      exact ⟨rest, hr, by simp only [List.length_cons]; omega⟩

theorem Ascends.rooted {name : String} {ancestors : List String}
    (h : r.Ascends name ancestors) : r.Rooted name := by
  intro ancestor ha
  obtain ⟨rest, hrest⟩ : ∃ rest, r.Ascends ancestor rest := by
    rcases reflTransGen_iff_eq_or_transGen.mp ha with rfl | ha
    · exact ⟨_, h⟩
    · obtain ⟨rest, hrest, _⟩ := h.suffix ha
      exact ⟨rest, hrest⟩
  refine ⟨hrest.contains, fun hcycle => ?_⟩
  obtain ⟨again, hagain, hlen⟩ := hrest.suffix hcycle
  rw [hagain.unique hrest] at hlen
  exact Nat.lt_irrefl _ hlen

theorem length_le_size {names : List String} (hn : names.Nodup)
    (hr : ∀ name ∈ names, r.contains name) : names.length ≤ r.size := by
  have hsub : names ⊆ r.names := fun name hm => Catalogue.contains_iff.mp (hr name hm)
  have hlen := (hn.subperm hsub).length_le
  simpa [Catalogue.names, namesOf, Catalogue.size] using hlen

/-! ## The search -/

theorem climb_root {steps : Nat} {chain : List String} {d : Definition} (hp : d.parent = none) :
    r.climb steps chain d = .ok chain := by
  unfold climb
  simp only [hp]

theorem climb_cycle {steps : Nat} {chain : List String} {d : Definition} {parent : String}
    (hp : d.parent = some parent) (hm : parent ∈ chain) :
    ∃ e, r.climb steps chain d = .error e := by
  unfold climb
  simp only [hp, if_pos hm]
  exact ⟨_, rfl⟩

theorem climb_unknown {steps : Nat} {chain : List String} {d : Definition} {parent : String}
    (hp : d.parent = some parent) (hm : parent ∉ chain) (hf : r.find? parent = none) :
    ∃ e, r.climb steps chain d = .error e := by
  unfold climb
  simp only [hp, if_neg hm, hf]
  exact ⟨_, rfl⟩

theorem climb_step {steps : Nat} {chain : List String} {d p : Definition} {parent : String}
    (hp : d.parent = some parent) (hm : parent ∉ chain) (hf : r.find? parent = some p) :
    r.climb (steps + 1) chain d = r.climb steps (chain ++ [parent]) p := by
  conv_lhs => unfold climb
  simp only [hp, if_neg hm, hf]

/-- Climbing either lists the ancestors above the definition, or meets a name that
shows that it is not rooted. The chain so far is kept without repetitions, and so it
has not used up the bound while a parent is still to be visited. -/
theorem climb_cases {steps : ℕ} {chain : List String} {d : Definition}
    (hd : r.find? d.name = some d) (hchain : chain.Nodup)
    (hreg : ∀ name ∈ chain, r.contains name ∧ ReflTransGen r.IsParent name d.name)
    (hbound : steps + chain.length = r.size + 1) :
    (∃ ancestors, r.Ascends d.name ancestors ∧ r.climb steps chain d = .ok (chain ++ ancestors)) ∨
      (¬ r.Rooted d.name ∧ ∃ e, r.climb steps chain d = .error e) := by
  induction steps generalizing chain d with
  | zero =>
    have hlen := length_le_size hchain fun name hm => (hreg name hm).1
    omega
  | succ steps ih =>
    cases hp : d.parent with
    | none => exact Or.inl ⟨[], .root hd hp, by rw [climb_root hp, List.append_nil]⟩
    | some parent =>
      have hparent := isParent_of_find? hd hp
      by_cases hm : parent ∈ chain
      · refine Or.inr ⟨fun hroot => ?_, climb_cycle hp hm⟩
        have hcycle : TransGen r.IsParent d.name d.name := .head' hparent (hreg parent hm).2
        exact (hroot d.name .refl).2 hcycle
      · cases hf : r.find? parent with
        | none =>
          refine Or.inr ⟨fun hroot => ?_, climb_unknown hp hm hf⟩
          have hknown := (hroot.parent hparent).contains
          simp [Catalogue.contains, hf] at hknown
        | some p =>
          have hname := name_of_find? hf
          have hclimb : r.climb (steps + 1) chain d = r.climb steps (chain ++ [parent]) p :=
            climb_step hp hm hf
          have hnodup : (chain ++ [parent]).Nodup := by
            rw [List.nodup_append]
            refine ⟨hchain, by simp, ?_⟩
            rintro a ha b hb rfl
            exact hm (List.mem_singleton.mp hb ▸ ha)
          have hreg' : ∀ name ∈ chain ++ [parent],
              r.contains name ∧ ReflTransGen r.IsParent name p.name := by
            intro name hmem
            rw [hname]
            rcases List.mem_append.mp hmem with hmem | hmem
            · exact ⟨(hreg name hmem).1, (hreg name hmem).2.tail hparent⟩
            · rw [List.mem_singleton.mp hmem]
              exact ⟨Catalogue.contains_of_find? hf, .refl⟩
          have hbound' : steps + (chain ++ [parent]).length = r.size + 1 := by
            rw [List.length_append, List.length_singleton]
            omega
          have hnext := ih (by rw [hname]; exact hf) hnodup hreg' hbound'
          rw [hname] at hnext
          rcases hnext with ⟨ancestors, hasc, hok⟩ | ⟨hnot, e, he⟩
          · exact Or.inl ⟨parent :: ancestors, .step hd hp hasc, by rw [hclimb, hok]; simp⟩
          · exact Or.inr ⟨fun hroot => hnot (hroot.parent hparent), e, by rw [hclimb, he]⟩

/-- The search from a registered name. -/
theorem climb_start {name : String} {d : Definition} (hd : r.find? name = some d) :
    (∃ ancestors, r.Ascends name ancestors ∧ r.climb r.size [name] d = .ok (name :: ancestors)) ∨
      (¬ r.Rooted name ∧ ∃ e, r.climb r.size [name] d = .error e) := by
  have hname := name_of_find? hd
  subst hname
  exact climb_cases hd (by simp)
    (by
      intro name hm
      rw [List.mem_singleton.mp hm]
      exact ⟨Catalogue.contains_of_find? hd, .refl⟩)
    (by simp only [List.length_singleton])

/-- The chain of a name is its ancestors from the root down and the name itself. -/
theorem chain_eq_ok_iff {name : String} {names : List String} :
    r.chain name = .ok names ↔
      ∃ ancestors, r.Ascends name ancestors ∧ names = (name :: ancestors).reverse := by
  simp only [chain, bind_eq_ok_iff, get_eq_ok_iff]
  constructor
  · rintro ⟨d, hd, climbed, hclimb, hnames⟩
    rcases climb_start hd with ⟨ancestors, hasc, hok⟩ | ⟨_, e, he⟩
    · rw [hok] at hclimb
      cases hclimb
      cases hnames
      exact ⟨ancestors, hasc, rfl⟩
    · rw [he] at hclimb
      cases hclimb
  · rintro ⟨ancestors, hasc, rfl⟩
    obtain ⟨d, hd⟩ := Option.isSome_iff_exists.mp hasc.contains
    rcases climb_start hd with ⟨climbed, hclimbed, hok⟩ | ⟨hnot, _⟩
    · rw [hasc.unique hclimbed]
      exact ⟨d, hd, _, hok, rfl⟩
    · exact absurd hasc.rooted hnot

theorem exists_chain_iff {name : String} :
    (∃ names, r.chain name = .ok names) ↔ r.Rooted name := by
  constructor
  · rintro ⟨names, h⟩
    obtain ⟨ancestors, hasc, _⟩ := chain_eq_ok_iff.mp h
    exact hasc.rooted
  · intro h
    obtain ⟨d, hd⟩ := Option.isSome_iff_exists.mp h.contains
    rcases climb_start hd with ⟨ancestors, hasc, _⟩ | ⟨hnot, _⟩
    · exact ⟨_, chain_eq_ok_iff.mpr ⟨ancestors, hasc, rfl⟩⟩
    · exact absurd h hnot

end RecordDefinitions.Registry
