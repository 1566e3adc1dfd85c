import Mathlib.Data.List.Infix
import RecordDefinitions.Text.Blank
import RecordDefinitions.Text.Pieces

/-!
# The ends of a text

Trimming leaves a text alone that has no blank at its two ends. A text with a given
beginning or ending loses it, and a text that ends with another character has not got
the ending.
-/

namespace RecordDefinitions.Text

/-- The text starts with a character of some kind. -/
def Starts (P : Char → Prop) (text : List Char) : Prop := ∃ c rest, text = c :: rest ∧ P c

/-- The text ends with a character of some kind. -/
def Ends (P : Char → Prop) (text : List Char) : Prop := ∃ start c, text = start ++ [c] ∧ P c

variable {P Q : Char → Prop} {text : List Char}

theorem Starts.append (h : Starts P text) (more : List Char) : Starts P (text ++ more) := by
  obtain ⟨c, rest, rfl, hc⟩ := h
  exact ⟨c, rest ++ more, rfl, hc⟩

theorem Ends.append (h : Ends P text) (before : List Char) : Ends P (before ++ text) := by
  obtain ⟨start, c, rfl, hc⟩ := h
  exact ⟨before ++ start, c, (List.append_assoc _ _ _).symm, hc⟩

theorem Starts.imp (hPQ : ∀ c, P c → Q c) (h : Starts P text) : Starts Q text := by
  obtain ⟨c, rest, rfl, hc⟩ := h
  exact ⟨c, rest, rfl, hPQ c hc⟩

theorem Ends.imp (hPQ : ∀ c, P c → Q c) (h : Ends P text) : Ends Q text := by
  obtain ⟨start, c, rfl, hc⟩ := h
  exact ⟨start, c, rfl, hPQ c hc⟩

/-- A text of characters of one kind starts and ends with that kind. -/
theorem starts_of_forall (hne : text ≠ []) (h : ∀ c ∈ text, P c) : Starts P text := by
  cases text with
  | nil => exact absurd rfl hne
  | cons c rest => exact ⟨c, rest, rfl, h c List.mem_cons_self⟩

theorem ends_of_forall (hne : text ≠ []) (h : ∀ c ∈ text, P c) : Ends P text :=
  ⟨text.dropLast, text.getLast hne, (List.dropLast_append_getLast hne).symm,
    h _ (List.getLast_mem hne)⟩

theorem Starts.intercalate {glue : List Char} {texts : List (List Char)} (hne : texts ≠ [])
    (h : ∀ text ∈ texts, Starts P text) : Starts P (glue.intercalate texts) := by
  cases texts with
  | nil => exact absurd rfl hne
  | cons first texts =>
    have hfirst := h first List.mem_cons_self
    cases texts with
    | nil => rwa [List.intercalate_singleton]
    | cons other texts =>
      rw [List.intercalate_cons_cons, List.append_assoc]
      exact hfirst.append _

theorem Ends.intercalate {glue : List Char} {texts : List (List Char)} (hne : texts ≠ [])
    (h : ∀ text ∈ texts, Ends P text) : Ends P (glue.intercalate texts) := by
  induction texts with
  | nil => exact absurd rfl hne
  | cons first texts ih =>
    obtain ⟨hfirst, hrest⟩ := List.forall_mem_cons.mp h
    cases texts with
    | nil => rwa [List.intercalate_singleton]
    | cons other texts =>
      rw [List.intercalate_cons_cons]
      exact (ih (List.cons_ne_nil _ _) hrest).append _

theorem suffix_intercalate (glue : List Char) (texts : List (List Char)) (last : List Char) :
    last <:+ glue.intercalate (texts ++ [last]) := by
  induction texts with
  | nil => rw [List.nil_append, List.intercalate_singleton]
  | cons first texts ih =>
    cases texts with
    | nil =>
      rw [List.cons_append, List.nil_append, List.intercalate_cons_cons,
        List.intercalate_singleton]
      exact List.suffix_append _ _
    | cons second texts =>
      rw [List.cons_append, List.cons_append, List.intercalate_cons_cons, ← List.cons_append]
      exact ih.trans (List.suffix_append _ _)

theorem dropWhile_isBlank (h : Starts (isBlank · = false) text) :
    text.dropWhile isBlank = text := by
  obtain ⟨c, rest, rfl, hc⟩ := h
  exact List.dropWhile_cons_of_neg (by simp [hc])

theorem trim_eq_self (hstart : Starts (isBlank · = false) text)
    (hend : Ends (isBlank · = false) text) : trim text = text := by
  obtain ⟨start, c, rfl, hc⟩ := hend
  have hreverse : Starts (isBlank · = false) (start ++ [c]).reverse :=
    ⟨c, start.reverse, by simp, hc⟩
  rw [trim, dropWhile_isBlank hstart, dropWhile_isBlank hreverse, List.reverse_reverse]

theorem trim_blank_cons {c : Char} (hc : isBlank c) : trim (c :: text) = trim text := by
  rw [trim, List.dropWhile_cons_of_pos hc, trim]

/-- A text is what trimming leaves of it, with blanks around. -/
theorem exists_trim (text : List Char) :
    ∃ before after, (∀ c ∈ before, isBlank c) ∧ (∀ c ∈ after, isBlank c) ∧
      text = before ++ trim text ++ after := by
  refine ⟨text.takeWhile isBlank, ((text.dropWhile isBlank).reverse.takeWhile isBlank).reverse,
    List.all_eq_true.mp List.all_takeWhile, ?_, ?_⟩
  · intro c hc
    exact List.all_eq_true.mp List.all_takeWhile c (List.mem_reverse.mp hc)
  · rw [trim, List.append_assoc, ← List.reverse_append, List.takeWhile_append_dropWhile,
      List.reverse_reverse, List.takeWhile_append_dropWhile]

theorem length_trim_le (text : List Char) : (trim text).length ≤ text.length := by
  obtain ⟨before, after, -, -, htext⟩ := exists_trim text
  have hlength := congrArg List.length htext
  rw [List.length_append, List.length_append] at hlength
  omega

/-- What trimming leaves is empty, or starts and ends with another character than a blank. -/
theorem trim_eq_nil_or (text : List Char) :
    trim text = [] ∨ Starts (isBlank · = false) (trim text) ∧ Ends (isBlank · = false) (trim text) := by
  have hhead {c : Char} {rest text : List Char} (h : text.dropWhile isBlank = c :: rest) :
      isBlank c = false := by
    have hnot := List.head?_dropWhile_not isBlank text
    rw [h] at hnot
    simpa using hnot
  cases hback : (text.dropWhile isBlank).reverse.dropWhile isBlank with
  | nil => exact Or.inl (by rw [trim, hback, List.reverse_nil])
  | cons last before =>
    have htrim : trim text = before.reverse ++ [last] := by
      rw [trim, hback, List.reverse_cons]
    have hfront := congrArg List.reverse
      (List.takeWhile_append_dropWhile (p := isBlank) (l := (text.dropWhile isBlank).reverse))
    rw [List.reverse_append, List.reverse_reverse, hback, List.reverse_cons, ← htrim] at hfront
    refine Or.inr ⟨?_, before.reverse, last, htrim, hhead hback⟩
    cases hstart : trim text with
    | nil => simp [hstart] at htrim
    | cons first rest =>
      rw [hstart, List.cons_append] at hfront
      exact ⟨first, rest, rfl, hhead hfront.symm⟩

theorem trim_trim (text : List Char) : trim (trim text) = trim text := by
  rcases trim_eq_nil_or text with hnil | ⟨hstart, hend⟩
  · rw [hnil]
    rfl
  · exact trim_eq_self hstart hend

theorem trim_append_of_blank {blanks : List Char} (htext : trim text = text) (hne : text ≠ [])
    (hblanks : ∀ c ∈ blanks, isBlank c) : trim (text ++ blanks) = text := by
  have hends := trim_eq_nil_or text
  rw [htext] at hends
  obtain ⟨hstart, hend⟩ := hends.resolve_left hne
  rw [trim, dropWhile_isBlank hstart] at htext
  rw [trim, dropWhile_isBlank (hstart.append blanks), List.reverse_append,
    List.dropWhile_append_of_pos fun c hc => hblanks c (List.mem_reverse.mp hc)]
  exact htext

theorem starts_of_trim (h : Starts P (trim text)) : Starts (fun c => isBlank c ∨ P c) text := by
  obtain ⟨before, after, hbefore, -, htext⟩ := exists_trim text
  rw [htext]
  cases before with
  | nil => exact (h.imp fun _ => Or.inr).append after
  | cons c rest => exact ⟨c, _, rfl, Or.inl (hbefore c List.mem_cons_self)⟩

/-- The start of a trimmed text has no blanks in front. -/
theorem exists_eq_trim_append {ending : List Char} (hne : ending ≠ [])
    (h : trim (text ++ ending) = text ++ ending) :
    ∃ blanks, (∀ c ∈ blanks, isBlank c) ∧ text = trim text ++ blanks := by
  obtain ⟨before, after, hbefore, hafter, htext⟩ := exists_trim text
  cases before with
  | nil => exact ⟨after, hafter, htext⟩
  | cons c rest =>
    have hblank := hbefore c List.mem_cons_self
    rcases trim_eq_nil_or (text ++ ending) with hnil | ⟨⟨d, others, hstart, hd⟩, -⟩
    · rw [h] at hnil
      exact absurd (List.append_eq_nil_iff.mp hnil).2 hne
    · rw [h, htext] at hstart
      rw [← (List.cons.inj hstart).1, hblank] at hd
      cases hd

theorem before?_append (text ending : List Char) : before? ending (text ++ ending) = some text := by
  have hend : ending.isSuffixOf (text ++ ending) := List.isSuffixOf_iff_suffix.mpr ⟨text, rfl⟩
  rw [before?, if_pos hend, List.length_append, Nat.add_sub_cancel, List.take_left]

theorem before?_eq_some_iff {ending text before : List Char} :
    before? ending text = some before ↔ text = before ++ ending := by
  constructor
  · intro h
    have hend : ending.isSuffixOf text := by
      by_contra hnot
      rw [before?, if_neg hnot] at h
      cases h
    obtain ⟨start, rfl⟩ := List.isSuffixOf_iff_suffix.mp hend
    rw [before?_append, Option.some.injEq] at h
    rw [h]
  · rintro rfl
    exact before?_append _ _

/-- A text that ends with another character than the ending. -/
theorem before?_eq_none (ending : List Char) {last : Char} (h : Ends (· ≠ last) text) :
    before? (ending ++ [last]) text = none := by
  refine if_neg fun hend => ?_
  obtain ⟨start, c, rfl, hc⟩ := h
  obtain ⟨before, hbefore⟩ := List.isSuffixOf_iff_suffix.mp hend
  rw [← List.append_assoc] at hbefore
  have hlast := List.append_inj_right' hbefore rfl
  exact hc (List.cons.inj hlast).1.symm

/-- The longest beginning of characters of a kind, where the text goes on with another one. -/
theorem takeWhile_append_of_starts {kind : Char → Bool} {rest : List Char}
    (h : ∀ c ∈ text, kind c) (hrest : Starts (kind · = false) rest) :
    (text ++ rest).takeWhile kind = text := by
  obtain ⟨d, more, rfl, hd⟩ := hrest
  rw [List.takeWhile_append_of_pos h, List.takeWhile_cons_of_neg (Bool.eq_false_iff.mp hd),
    List.append_nil]

theorem dropWhile_append_of_starts {kind : Char → Bool} {rest : List Char}
    (h : ∀ c ∈ text, kind c) (hrest : Starts (kind · = false) rest) :
    (text ++ rest).dropWhile kind = rest := by
  obtain ⟨d, more, rfl, hd⟩ := hrest
  rw [List.dropWhile_append_of_pos h, List.dropWhile_cons_of_neg (Bool.eq_false_iff.mp hd)]

theorem after?_append (beginning text : List Char) :
    after? beginning (beginning ++ text) = some text := by
  have hstart : beginning.isPrefixOf (beginning ++ text) :=
    List.isPrefixOf_iff_prefix.mpr (List.prefix_append _ _)
  rw [after?, if_pos hstart, List.drop_left]

theorem after?_eq_some_iff {beginning text after : List Char} :
    after? beginning text = some after ↔ text = beginning ++ after := by
  constructor
  · intro h
    have hstart : beginning.isPrefixOf text := by
      by_contra hnot
      rw [after?, if_neg hnot] at h
      cases h
    obtain ⟨rest, rfl⟩ := List.isPrefixOf_iff_prefix.mp hstart
    rw [after?_append, Option.some.injEq] at h
    rw [h]
  · rintro rfl
    exact after?_append _ _

theorem after?_eq_none {beginning : List Char} {c : Char} (hc : c ∈ beginning) (h : c ∉ text) :
    after? beginning text = none :=
  if_neg fun hstart => h ((List.isPrefixOf_iff_prefix.mp hstart).subset hc)

theorem after?_append_append (start beginning text : List Char) :
    after? (start ++ beginning) (start ++ text) = after? beginning text := by
  have hprefix : (start ++ beginning).isPrefixOf (start ++ text) = beginning.isPrefixOf text := by
    rw [Bool.eq_iff_iff, List.isPrefixOf_iff_prefix, List.isPrefixOf_iff_prefix,
      List.prefix_append_right_inj]
  rw [after?, after?, hprefix, List.length_append, List.drop_length_add_append]

/-- A text that leaves the beginning at some character. -/
theorem after?_of_ne {c d : Char} (h : c ≠ d) (start beginning text : List Char) :
    after? (start ++ c :: beginning) (start ++ d :: text) = none := by
  rw [after?_append_append]
  simp [after?, h]

/-- A text that starts with another word, or with the same one and another mark behind it. -/
theorem after?_of_word {kind : Char → Bool} {word rest : List Char} {mark : Char}
    (hword : ∀ c ∈ word, kind c) (hmark : kind mark = false) (h : ∀ c ∈ text, kind c)
    (hrest : Starts (fun c => kind c = false ∧ c ≠ mark) rest) (more : List Char) :
    after? (word ++ mark :: more) (text ++ rest) = none := by
  by_contra hsome
  obtain ⟨after, hafter⟩ := Option.ne_none_iff_exists'.mp hsome
  have htext : text ++ rest = word ++ mark :: (more ++ after) := by
    rw [after?_eq_some_iff.mp hafter, List.append_assoc, List.cons_append]
  have hmarked : rest = mark :: (more ++ after) := by
    rw [← dropWhile_append_of_starts h (hrest.imp fun _ => And.left), htext]
    exact dropWhile_append_of_starts hword ⟨mark, _, rfl, hmark⟩
  obtain ⟨c, others, rfl, -, hc⟩ := hrest
  exact hc (List.cons.inj hmarked).1

theorem length_of_after? {beginning text after : List Char}
    (h : after? beginning text = some after) : after.length ≤ text.length := by
  rw [after?_eq_some_iff.mp h, List.length_append]
  exact Nat.le_add_left _ _

end RecordDefinitions.Text
