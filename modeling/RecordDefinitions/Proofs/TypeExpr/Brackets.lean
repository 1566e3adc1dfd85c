import RecordDefinitions.Proofs.Text.Pieces
import RecordDefinitions.TypeExpr.Reader

/-!
# Cutting outside brackets

A text passes in one piece, at a depth of brackets, when cutting what follows it leaves it
whole in front of the first piece. Brackets hide every separator that stands inside them.
-/

namespace RecordDefinitions.TypeExpr

/-- A text in front of the first of some pieces. -/
def inFront (text : List Char) : List (List Char) → List (List Char)
  | [] => [text]
  | p :: ps => (text ++ p) :: ps

/-- The text is not cut, and what follows it is cut at the same depth. -/
def Passes (separator : Char) (depth : Int) (text : List Char) : Prop :=
  ∀ rest, topLevelPieces separator depth (text ++ rest) =
    inFront text (topLevelPieces separator depth rest)

theorem topLevelPieces_ne_nil (separator : Char) (depth : Int) (text : List Char) :
    topLevelPieces separator depth text ≠ [] := by
  cases text with
  | nil => simp [topLevelPieces]
  | cons c cs =>
    rw [topLevelPieces]
    split
    · exact List.cons_ne_nil _ _
    · dsimp only
      split <;> exact List.cons_ne_nil _ _

variable {separator : Char} {depth : Int}

theorem topLevelPieces_separator (separator : Char) (text : List Char) :
    topLevelPieces separator 0 (separator :: text) = [] :: topLevelPieces separator 0 text := by
  rw [topLevelPieces, if_pos ⟨rfl, rfl⟩]

/-- Any character but a separator outside all brackets stays in front of what follows. -/
theorem topLevelPieces_cons {c : Char} (hc : ¬ (c = separator ∧ depth = 0)) (text : List Char) :
    topLevelPieces separator depth (c :: text) =
      inFront [c] (topLevelPieces separator
        (if c = '<' then depth + 1 else if c = '>' then depth - 1 else depth) text) := by
  rw [topLevelPieces, if_neg hc]
  dsimp only
  split <;> simp_all [inFront]

/-- Cutting loses nothing but separators. -/
theorem joined_topLevelPieces (separator : Char) (depth : Int) (text : List Char) :
    Text.joined separator (topLevelPieces separator depth text) = text := by
  induction text generalizing depth with
  | nil => rfl
  | cons c text ih =>
    by_cases hc : c = separator ∧ depth = 0
    · obtain ⟨rfl, rfl⟩ := hc
      have hrest := ih 0
      rw [topLevelPieces_separator]
      cases hpieces : topLevelPieces c 0 text with
      | nil => exact absurd hpieces (topLevelPieces_ne_nil _ _ _)
      | cons piece pieces =>
        rw [hpieces] at hrest
        rw [Text.joined, hrest, List.nil_append]
        exact List.cons_ne_nil _ _
    · obtain ⟨inner, hcut⟩ : ∃ inner, topLevelPieces separator depth (c :: text) =
          inFront [c] (topLevelPieces separator inner text) :=
        ⟨_, topLevelPieces_cons hc text⟩
      have hrest := ih inner
      rw [hcut]
      cases hpieces : topLevelPieces separator inner text with
      | nil => exact absurd hpieces (topLevelPieces_ne_nil _ _ _)
      | cons piece pieces =>
        rw [hpieces] at hrest
        rw [inFront, ← hrest]
        cases pieces <;> rfl

theorem length_le_of_mem_topLevelPieces {separator : Char} {depth : Int} {text piece : List Char}
    (h : piece ∈ topLevelPieces separator depth text) : piece.length ≤ text.length := by
  have hjoined : piece.length ≤
      (Text.joined separator (topLevelPieces separator depth text)).length :=
    Text.length_le_joined h
  rwa [joined_topLevelPieces] at hjoined

namespace Passes

theorem nil : Passes separator depth [] := by
  intro rest
  cases h : topLevelPieces separator depth rest with
  | nil => exact absurd h (topLevelPieces_ne_nil _ _ _)
  | cons p ps => exact h

theorem append {first others : List Char} (h : Passes separator depth first)
    (h' : Passes separator depth others) : Passes separator depth (first ++ others) := by
  intro rest
  rw [List.append_assoc, h, h']
  cases topLevelPieces separator depth rest <;> simp [inFront]

/-- Characters that neither separate nor open or close brackets. -/
theorem of_forall {text : List Char}
    (h : ∀ c ∈ text, c ≠ '<' ∧ c ≠ '>' ∧ (c = separator → depth ≠ 0)) :
    Passes separator depth text := by
  induction text with
  | nil => exact nil
  | cons c text ih =>
    obtain ⟨⟨hopen, hclose, hseparator⟩, htext⟩ := List.forall_mem_cons.mp h
    have hc : Passes separator depth [c] := by
      intro rest
      have hcut : ¬ (c = separator ∧ depth = 0) := fun hboth => hseparator hboth.1 hboth.2
      rw [List.singleton_append, topLevelPieces_cons hcut, if_neg hopen, if_neg hclose]
    exact hc.append (ih htext)

/-- A text in brackets passes when it does one level down. -/
theorem bracketed {text : List Char} (hopen : separator ≠ '<') (hclose : separator ≠ '>')
    (h : Passes separator (depth + 1) text) : Passes separator depth ('<' :: text ++ ['>']) := by
  intro rest
  have hfirst : ¬ ('<' = separator ∧ depth = 0) := fun hboth => hopen hboth.1.symm
  have hlast : ¬ ('>' = separator ∧ depth + 1 = 0) := fun hboth => hclose hboth.1.symm
  rw [List.cons_append, List.cons_append, topLevelPieces_cons hfirst, if_pos rfl, List.append_assoc,
    h, List.singleton_append, topLevelPieces_cons hlast, if_neg (by decide), if_pos rfl,
    Int.add_sub_cancel]
  cases topLevelPieces separator depth rest <;> simp [inFront]

theorem intercalate {glue : List Char} {texts : List (List Char)}
    (hglue : Passes separator depth glue) (h : ∀ text ∈ texts, Passes separator depth text) :
    Passes separator depth (glue.intercalate texts) := by
  induction texts with
  | nil => exact nil
  | cons text texts ih =>
    obtain ⟨htext, hrest⟩ := List.forall_mem_cons.mp h
    cases texts with
    | nil => simpa using htext
    | cons other texts =>
      rw [List.intercalate_cons_cons]
      exact (htext.append hglue).append (ih hrest)

end Passes

theorem topLevelPieces_of_passes {text : List Char} (h : Passes separator 0 text) :
    topLevelPieces separator 0 text = [text] := by
  have hnil := h []
  rw [List.append_nil] at hnil
  rw [hnil, topLevelPieces, inFront, List.append_nil]

theorem topLevelPieces_cut {text : List Char} (h : Passes separator 0 text) (rest : List Char) :
    topLevelPieces separator 0 (text ++ separator :: rest) =
      text :: topLevelPieces separator 0 rest := by
  rw [h, topLevelPieces_separator, inFront, List.append_nil]

/-- Texts that pass are what their row is cut into again. -/
theorem topLevelPieces_intercalate {texts : List (List Char)} (hne : texts ≠ [])
    (h : ∀ text ∈ texts, Passes separator 0 text) :
    topLevelPieces separator 0 ([separator].intercalate texts) = texts := by
  induction texts with
  | nil => exact absurd rfl hne
  | cons text texts ih =>
    obtain ⟨htext, hrest⟩ := List.forall_mem_cons.mp h
    cases texts with
    | nil =>
      rw [List.intercalate_singleton]
      exact topLevelPieces_of_passes htext
    | cons other texts =>
      rw [List.intercalate_cons_cons, List.append_assoc, List.singleton_append,
        topLevelPieces_cut htext, ih (List.cons_ne_nil _ _) hrest]

end RecordDefinitions.TypeExpr
