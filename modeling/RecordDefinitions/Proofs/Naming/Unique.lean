import Mathlib.Data.Finset.Card
import Mathlib.Order.Interval.Finset.Nat
import RecordDefinitions.Naming.Unique

/-!
# Names that are told apart

Bases are named one after the other with one set of taken names. Every call ends, because the
set is finite and numbers make different names of a base. It adds the name that it gives, so no
name is given twice, also when a base looks like the name that another one was given.
-/

namespace RecordDefinitions.Naming

variable {used : List String} {base name : String}

/-- The names of bases, given one after the other; `used` are the names so far. -/
def uniqueNames (used : List String) : List String → List String
  | [] => []
  | base :: bases =>
    uniqueName used base :: uniqueNames (uniqueName used base :: used) bases

/-- A name stays as it is or gets a number. -/
theorem uniqueName_eq_or (used : List String) (base : String) :
    uniqueName used base = base ∨ ∃ n, uniqueName used base = numbered base n := by
  rw [uniqueName]
  split
  · exact Or.inr ⟨_, rfl⟩
  · exact Or.inl rfl

/-! ## Rows of names -/

theorem uniqueNames_fresh (used bases : List String) :
    (uniqueNames used bases).Nodup ∧ ∀ name ∈ uniqueNames used bases, name ∉ used := by
  induction bases generalizing used with
  | nil => exact ⟨List.nodup_nil, nofun⟩
  | cons base bases ih =>
    obtain ⟨hnodup, hfresh⟩ := ih (uniqueName used base :: used)
    have hnew : uniqueName used base ∉ uniqueNames (uniqueName used base :: used) bases := by
      intro hmem
      exact hfresh _ hmem List.mem_cons_self
    rw [uniqueNames, List.forall_mem_cons]
    refine ⟨List.nodup_cons.mpr ⟨hnew, hnodup⟩, uniqueName_not_mem used base, ?_⟩
    intro name hname hused
    exact hfresh name hname (List.mem_cons_of_mem _ hused)

/-- Every base is a name in the end. -/
theorem mem_or_mem_uniqueNames {bases : List String} (hbase : base ∈ bases) (used : List String) :
    base ∈ used ∨ base ∈ uniqueNames used bases := by
  induction bases generalizing used with
  | nil => cases hbase
  | cons first bases ih =>
    rw [uniqueNames]
    rcases List.mem_cons.mp hbase with rfl | hbase
    · by_cases hused : base ∈ used
      · exact Or.inl hused
      · exact Or.inr (List.mem_cons.mpr (Or.inl (uniqueName_of_not_mem hused).symm))
    · rcases ih hbase (uniqueName used first :: used) with h | h
      · rcases List.mem_cons.mp h with h | h
        · exact Or.inr (List.mem_cons.mpr (Or.inl h))
        · exact Or.inl h
      · exact Or.inr (List.mem_cons_of_mem _ h)

theorem exists_of_mem_uniqueNames {bases : List String} (h : name ∈ uniqueNames used bases) :
    ∃ base ∈ bases, ∃ taken, name = uniqueName taken base := by
  induction bases generalizing used with
  | nil => cases h
  | cons first bases ih =>
    rw [uniqueNames] at h
    rcases List.mem_cons.mp h with rfl | h
    · exact ⟨first, List.mem_cons_self, used, rfl⟩
    · obtain ⟨base, hbase, hname⟩ := ih h
      exact ⟨base, List.mem_cons_of_mem first hbase, hname⟩

/-! ## Counting up -/

/-- Counting on from a number until its name is free. -/
inductive CountsTo (taken : Finset String) (base : String) : ℕ → ℕ → Prop
  | stop {n : ℕ} : numbered base n ∉ taken → CountsTo taken base n n
  | next {n last : ℕ} :
    numbered base n ∈ taken → CountsTo taken base (n + 1) last → CountsTo taken base n last

section Counting

variable {taken : Finset String} {start n : ℕ}

theorem CountsTo.isLeast (h : CountsTo taken base start n) :
    IsLeast {k | start ≤ k ∧ numbered base k ∉ taken} n := by
  induction h with
  | stop hfree => exact ⟨⟨le_rfl, hfree⟩, fun k hk => hk.1⟩
  | @next first last htaken _ ih =>
    obtain ⟨⟨hle, hfree⟩, hleast⟩ := ih
    refine ⟨⟨by omega, hfree⟩, ?_⟩
    intro k hk
    have hother : first ≠ k := by
      rintro rfl
      exact hk.2 htaken
    exact hleast ⟨lt_of_le_of_ne hk.1 hother, hk.2⟩

theorem countsTo_add {distance : ℕ} (hfree : numbered base (start + distance) ∉ taken)
    (hpassed : ∀ k, start ≤ k → k < start + distance → numbered base k ∈ taken) :
    CountsTo taken base start (start + distance) := by
  -- What is left of the way gets shorter with every name that is taken.
  induction distance generalizing start with
  | zero => exact .stop hfree
  | succ distance ih =>
    have hnumber : start + (distance + 1) = start + 1 + distance := by omega
    have htaken : numbered base start ∈ taken := hpassed start le_rfl (by omega)
    rw [hnumber] at hfree hpassed ⊢
    apply CountsTo.next htaken
    apply ih hfree
    intro k hk
    exact hpassed k (Nat.le_of_succ_le hk)

theorem numbered_ne (base : String) (n : ℕ) : numbered base n ≠ base := by
  intro h
  have htext : base.toList ++ Decimal.digits n = base.toList ++ [] := by
    simpa [numbered, Decimal.text] using congrArg String.toList h
  exact Decimal.digits_ne_nil n (List.append_cancel_left htext)

/-- A taken base and the names that were passed by are different members of the set. -/
theorem CountsTo.le_card (h : CountsTo taken base 2 n) (hbase : base ∈ taken) :
    n ≤ taken.card + 1 := by
  have hpassed : (Finset.Ico 2 n).image (numbered base) ⊆ taken.erase base := by
    intro name hname
    obtain ⟨k, hk, rfl⟩ := Finset.mem_image.mp hname
    rw [Finset.mem_Ico] at hk
    refine Finset.mem_erase.mpr ⟨numbered_ne base k, ?_⟩
    by_contra hfree
    have := h.isLeast.2 ⟨hk.1, hfree⟩
    omega
  have hcount := Finset.card_le_card hpassed
  have hmembers := Finset.card_pos.mpr ⟨base, hbase⟩
  rw [Finset.card_image_of_injective _ fun _ _ => numbered_injective, Nat.card_Ico,
    Finset.card_erase_of_mem hbase] at hcount
  omega

end Counting

/-! ## Calls with one set of names -/

/-- What a call does with the names that are taken. It keeps a free base, and counts up from two
for a taken one. The name is new, and nothing else is added. -/
structure Call (taken : Finset String) (base name : String) (after : Finset String) : Prop where
  fresh : name ∉ taken
  added : after = insert name taken
  kept : base ∉ taken → name = base
  counted : base ∈ taken → ∃ n, CountsTo taken base 2 n ∧
    IsLeast {k | 2 ≤ k ∧ numbered base k ∉ taken} n ∧ n ≤ taken.card + 1 ∧ name = numbered base n

/-- Calls one after the other, each with the names that the one before it left. -/
inductive Calls : Finset String → List String → List String → Finset String → Prop
  | nil (taken : Finset String) : Calls taken [] [] taken
  | cons {taken between after : Finset String} {base name : String} {bases names : List String} :
    Call taken base name between → Calls between bases names after →
      Calls taken (base :: bases) (name :: names) after

theorem call_uniqueName (used : List String) (base : String) :
    Call used.toFinset base (uniqueName used base) (uniqueName used base :: used).toFinset where
  fresh h := uniqueName_not_mem used base (List.mem_toFinset.mp h)
  added := List.toFinset_cons
  kept h := uniqueName_of_not_mem fun hmem => h (List.mem_toFinset.mpr hmem)
  counted h := by
    have hmem : base ∈ used := List.mem_toFinset.mp h
    obtain ⟨n, hn⟩ := Option.isSome_iff_exists.mp (isSome_freeNumber? used base)
    obtain ⟨hle, hfree, hpassed⟩ := freeNumber?_eq_some hn
    obtain ⟨distance, rfl⟩ := Nat.exists_eq_add_of_le hle
    have hcounts : CountsTo used.toFinset base 2 (2 + distance) := by
      apply countsTo_add
      · rwa [List.mem_toFinset]
      · intro k hk hlt
        exact List.mem_toFinset.mpr (hpassed k hk hlt)
    refine ⟨2 + distance, hcounts, hcounts.isLeast, hcounts.le_card h, ?_⟩
    rw [uniqueName, List.contains_iff_mem.mpr hmem, if_pos rfl, hn, Option.getD_some]

theorem Call.unique {taken after after' : Finset String} {base name name' : String}
    (h : Call taken base name after) (h' : Call taken base name' after') :
    name = name' ∧ after = after' := by
  have hname : name = name' := by
    by_cases hbase : base ∈ taken
    · obtain ⟨n, -, hleast, -, hn⟩ := h.counted hbase
      obtain ⟨m, -, hleast', -, hm⟩ := h'.counted hbase
      rw [hn, hm, hleast.unique hleast']
    · rw [h.kept hbase, h'.kept hbase]
  refine ⟨hname, ?_⟩
  rw [h.added, h'.added, hname]

theorem Calls.unique {taken after after' : Finset String} {bases names names' : List String}
    (h : Calls taken bases names after) (h' : Calls taken bases names' after') :
    names = names' ∧ after = after' := by
  induction h generalizing names' after' with
  | nil =>
    cases h'
    exact ⟨rfl, rfl⟩
  | cons hcall _ ih =>
    cases h' with
    | cons hcall' hrest' =>
      obtain ⟨rfl, rfl⟩ := hcall.unique hcall'
      obtain ⟨rfl, rfl⟩ := ih hrest'
      exact ⟨rfl, rfl⟩

theorem calls_uniqueNames (used bases : List String) :
    Calls used.toFinset bases (uniqueNames used bases)
      (used.toFinset ∪ (uniqueNames used bases).toFinset) := by
  induction bases generalizing used with
  | nil =>
    rw [uniqueNames, List.toFinset_nil, Finset.union_empty]
    exact .nil used.toFinset
  | cons base bases ih =>
    have hafter : used.toFinset ∪ (uniqueNames used (base :: bases)).toFinset =
        (uniqueName used base :: used).toFinset ∪
          (uniqueNames (uniqueName used base :: used) bases).toFinset := by
      rw [uniqueNames, List.toFinset_cons, List.toFinset_cons, Finset.union_insert,
        Finset.insert_union]
    rw [hafter]
    exact .cons (call_uniqueName used base) (ih (uniqueName used base :: used))

/-- However many bases are named with one set of names, the calls end, and in one way only. Each of
them gives the base, if that is free, or else the base with the smallest number from two on that
makes it free, and adds this name to the set. So no name is given twice. -/
theorem calls_iff_uniqueNames (used bases : List String) :
    (∀ names after, Calls used.toFinset bases names after ↔
        names = uniqueNames used bases ∧ after = used.toFinset ∪ names.toFinset) ∧
      (uniqueNames used bases).Nodup ∧ ∀ name ∈ uniqueNames used bases, name ∉ used := by
  have hcalls := calls_uniqueNames used bases
  refine ⟨?_, uniqueNames_fresh used bases⟩
  intro names after
  constructor
  · intro h
    obtain ⟨rfl, rfl⟩ := h.unique hcalls
    exact ⟨rfl, rfl⟩
  · rintro ⟨rfl, rfl⟩
    exact hcalls

example : uniqueNames ["Item2"] ["Item", "Item", "Item3", "Item"] =
    ["Item", "Item3", "Item32", "Item4"] := by cbv

end RecordDefinitions.Naming
