import Mathlib
import RecordDefinitions.Naming.Case
import RecordDefinitions.Proofs.Text.Ends
import RecordDefinitions.Proofs.Text.Pieces

/-!
# The words of a name

The words of a name hold its letters and digits in lower case and in their order, and nothing
else. Put together with underscores they are the words of the new name again, so that a name and
its snake case are alike in every casing.
-/

namespace RecordDefinitions.Naming

/-! ## Characters -/

theorem not_isLower_of_isDigit {c : Char} (h : c.isDigit) : ¬ c.isLower := by
  simp only [Char.isDigit, Char.isLower, Bool.and_eq_true, decide_eq_true_eq,
    UInt32.le_iff_toNat_le, ge_iff_le] at h ⊢
  change 48 ≤ c.toNat ∧ c.toNat ≤ 57 at h
  change ¬ (97 ≤ c.toNat ∧ c.toNat ≤ 122)
  omega

theorem not_isUpper_of_isDigit {c : Char} (h : c.isDigit) : ¬ c.isUpper := by
  simp only [Char.isDigit, Char.isUpper, Bool.and_eq_true, decide_eq_true_eq,
    UInt32.le_iff_toNat_le, ge_iff_le] at h ⊢
  change 48 ≤ c.toNat ∧ c.toNat ≤ 57 at h
  change ¬ (65 ≤ c.toNat ∧ c.toNat ≤ 90)
  omega

theorem isAlphanum_toUpper {c : Char} (h : c.isAlphanum) : c.toUpper.isAlphanum := by
  rcases Bool.or_eq_true_iff.mp h with h | h
  · rw [Char.isAlphanum, Char.isAlpha_toUpper_eq_isAlpha, h, Bool.true_or]
  · rw [Char.toUpper_eq_of_not_isLower (not_isLower_of_isDigit h), Char.isAlphanum, h, Bool.or_true]

theorem isAlphanum_toLower {c : Char} (h : c.isAlphanum) : c.toLower.isAlphanum := by
  by_cases hupper : c.isUpper
  · have halpha : c.isAlpha := by rw [Char.isAlpha, hupper, Bool.true_or]
    rw [Char.isAlphanum, Char.isAlpha_toLower_eq_isAlpha, halpha, Bool.true_or]
  · rwa [Char.toLower_eq_of_not_isUpper hupper]

/-- A letter or digit in capitals. -/
theorem isUpper_or_isDigit_toUpper {c : Char} (h : c.isAlphanum) :
    c.toUpper.isUpper ∨ c.toUpper.isDigit := by
  rcases Bool.or_eq_true_iff.mp h with h | h
  · exact Or.inl ((Char.isUpper_toUpper_eq_isAlpha c).trans h)
  · rw [Char.toUpper_eq_of_not_isLower (not_isLower_of_isDigit h)]
    exact Or.inr h

/-- A letter or digit in lower case. -/
theorem isLower_or_isDigit_toLower {c : Char} (h : c.isAlphanum) :
    c.toLower.isLower ∨ c.toLower.isDigit := by
  rcases Bool.or_eq_true_iff.mp h with h | h
  · exact Or.inl ((Char.isLower_toLower_eq_isAlpha c).trans h)
  · rw [Char.toLower_eq_of_not_isUpper (not_isUpper_of_isDigit h)]
    exact Or.inr h

theorem not_isUpper_of_isLower_or_isDigit {c : Char} (h : c.isLower ∨ c.isDigit) : ¬ c.isUpper :=
  h.elim Char.not_isUpper_of_isLower not_isUpper_of_isDigit

/-! ## Where words start -/

/-- Of the character behind a capital only matters whether it is a lower-case letter. -/
theorem startsWord_congr {next next' : Option Char}
    (h : next.any Char.isLower = next'.any Char.isLower) (a b : Char) :
    startsWord a b next = startsWord a b next' := by
  rw [startsWord, startsWord, h]

theorem isUpper_of_startsWord {a b : Char} {next : Option Char} (h : startsWord a b next) :
    b.isUpper := by
  rcases Bool.or_eq_true_iff.mp h with h | h
  · exact (Bool.and_eq_true_iff.mp h).2
  · exact (Bool.and_eq_true_iff.mp (Bool.and_eq_true_iff.mp h).1).2

theorem isAlphanum_of_startsWord {a b : Char} {next : Option Char} (h : startsWord a b next) :
    a.isAlphanum := by
  rw [Char.isAlphanum, Char.isAlpha]
  rcases Bool.or_eq_true_iff.mp h with h | h
  · rw [(Bool.and_eq_true_iff.mp h).1, Bool.or_true, Bool.true_or]
  · rw [(Bool.and_eq_true_iff.mp (Bool.and_eq_true_iff.mp h).1).1, Bool.true_or, Bool.true_or]

theorem words_cons_cons (a b : Char) (rest : List Char) :
    words (a :: b :: rest) =
      if startsWord a b rest.head? then [a] :: words (b :: rest)
      else (words (b :: rest)).modifyHead (a :: ·) := by
  rw [words]
  cases hrest : words (b :: rest) with
  | nil => exact absurd hrest (words_cons_ne_nil b rest)
  | cons w ws => rfl

/-- Where a word starts, the words of both sides do not depend on each other. -/
theorem words_append_of_startsWord {a b : Char} {after : List Char}
    (h : startsWord a b after.head?) (before : List Char) :
    words (before ++ a :: b :: after) = words (before ++ [a]) ++ words (b :: after) := by
  have hnotLower : b.isLower = false :=
    eq_false_of_ne_true (Char.not_isLower_of_isUpper (isUpper_of_startsWord h))
  induction before with
  | nil =>
    rw [List.nil_append, List.nil_append, words_cons_cons, if_pos h]
    rfl
  | cons p before ih =>
    obtain ⟨q, rest, hbefore⟩ := List.exists_cons_of_ne_nil (List.concat_ne_nil a before)
    have htext : before ++ a :: b :: after = q :: (rest ++ b :: after) := by
      rw [← List.cons_append, ← hbefore, List.append_assoc]
      rfl
    -- The character behind `q` is `b` or nothing, if it is not the same on both sides.
    have hnext : (rest ++ b :: after).head?.any Char.isLower = rest.head?.any Char.isLower := by
      cases rest with
      | nil => exact hnotLower
      | cons c rest => rfl
    rw [htext, hbefore] at ih
    rw [List.cons_append, List.cons_append, htext, hbefore, words_cons_cons, words_cons_cons, ih,
      startsWord_congr hnext]
    cases hrest : words (q :: rest) with
    | nil => exact absurd hrest (words_cons_ne_nil q rest)
    | cons w ws => split <;> rfl

theorem words_of_not_startsWord {cs : List Char} (hne : cs ≠ [])
    (h : ∀ before a b after, cs = before ++ a :: b :: after → ¬ startsWord a b after.head?) :
    words cs = [cs] := by
  induction cs with
  | nil => exact absurd rfl hne
  | cons a cs ih =>
    cases cs with
    | nil => rfl
    | cons b rest =>
      have hrest : words (b :: rest) = [b :: rest] := by
        apply ih (List.cons_ne_nil b rest)
        intro before x y after hcs
        exact h (a :: before) x y after (by rw [hcs, List.cons_append])
      rw [words_cons_cons, if_neg (h [] a b rest rfl), hrest]
      rfl

/-! ## The words of names -/

/-- Cutting a text into lower-case words: at all but letters and digits, where a word starts in
a run of them, and nowhere else. -/
structure CutsIntoWords (cut : List Char → List (List Char)) : Prop where
  empty : cut [] = []
  separator : ∀ before c after, c.isAlphanum = false →
    cut (before ++ c :: after) = cut before ++ cut after
  start : ∀ before a b after, startsWord a b after.head? →
    cut (before ++ a :: b :: after) = cut (before ++ [a]) ++ cut (b :: after)
  run : ∀ cs, cs ≠ [] → (∀ c ∈ cs, c.isAlphanum) →
    (∀ before a b after, cs = before ++ a :: b :: after → ¬ startsWord a b after.head?) →
    cut cs = [cs.map Char.toLower]

theorem tokens_separator {c : Char} (hc : c.isAlphanum = false) (before after : List Char) :
    tokens (before ++ c :: after) = tokens before ++ tokens after := by
  have hseparates : (!c.isAlphanum) = true := by rw [hc, Bool.not_false]
  rw [tokens, Text.pieces_separator_append hseparates, List.flatMap_append, List.map_append]
  rfl

theorem head?_of_pieces {text q : List Char} {rest : List (List Char)}
    (h : Text.pieces (fun c => !c.isAlphanum) text = q :: rest) :
    q.head?.any Char.isLower = text.head?.any Char.isLower := by
  cases text with
  | nil =>
    cases h
    rfl
  | cons c text =>
    rw [Text.pieces] at h
    split at h
    next hc =>
      obtain ⟨rfl, -⟩ := List.cons.inj h
      have hlower : c.isLower = false := by
        simp only [Char.isAlphanum, Char.isAlpha, Bool.not_eq_true', Bool.or_eq_false_iff] at hc
        exact hc.1.2
      exact hlower.symm
    · cases hpieces : Text.pieces (fun c => !c.isAlphanum) text with
      | nil => exact absurd hpieces (Text.pieces_ne_nil _ text)
      | cons piece pieces =>
        rw [hpieces] at h
        obtain ⟨rfl, -⟩ := List.cons.inj h
        rfl

theorem tokens_start {a b : Char} {after : List Char} (h : startsWord a b after.head?)
    (before : List Char) :
    tokens (before ++ a :: b :: after) = tokens (before ++ [a]) ++ tokens (b :: after) := by
  obtain ⟨init, p, hbefore⟩ : ∃ init p, Text.pieces (fun c => !c.isAlphanum) before = init ++ [p] :=
    ⟨_, _, (List.dropLast_append_getLast (Text.pieces_ne_nil _ before)).symm⟩
  obtain ⟨q, rest, hafter⟩ := List.exists_cons_of_ne_nil
    (Text.pieces_ne_nil (fun c => !c.isAlphanum) after)
  have ha : Text.pieces (fun c => !c.isAlphanum) [a] = [[a]] :=
    Text.pieces_of_forall (by simp [isAlphanum_of_startsWord h])
  have hb : Text.pieces (fun c => !c.isAlphanum) (b :: after) = (b :: q) :: rest := by
    have halphanum : b.isAlphanum := by
      rw [Char.isAlphanum, Char.isAlpha, isUpper_of_startsWord h, Bool.true_or, Bool.true_or]
    rw [Text.pieces, hafter, if_neg (by simp [halphanum])]
  have hleft := Text.pieces_append hbefore ha
  have hwhole := Text.pieces_append hleft hb
  have hwords := words_append_of_startsWord ((startsWord_congr (head?_of_pieces hafter) a b).trans h) p
  rw [List.append_assoc, List.singleton_append] at hwhole
  rw [tokens, tokens, tokens, hwhole, hleft, hb, ← List.map_append]
  simp [hwords]

theorem tokens_run {cs : List Char} (hne : cs ≠ []) (hall : ∀ c ∈ cs, c.isAlphanum)
    (h : ∀ before a b after, cs = before ++ a :: b :: after → ¬ startsWord a b after.head?) :
    tokens cs = [cs.map Char.toLower] := by
  have hpieces : Text.pieces (fun c => !c.isAlphanum) cs = [cs] :=
    Text.pieces_of_forall fun c hc => by rw [hall c hc, Bool.not_true]
  rw [tokens, hpieces, List.flatMap_singleton, words_of_not_startsWord hne h]
  rfl

theorem cutsIntoWords_tokens : CutsIntoWords tokens where
  empty := rfl
  separator before _ after hc := tokens_separator hc before after
  start before _ _ _ h := tokens_start h before
  run _ hne hall h := tokens_run hne hall h

/-- There is one way to cut: a text is cut somewhere into shorter ones, or it is a word. -/
theorem CutsIntoWords.unique {cut cut' : List Char → List (List Char)} (h : CutsIntoWords cut)
    (h' : CutsIntoWords cut') : cut = cut' := by
  funext text
  induction hlength : text.length using Nat.strong_induction_on generalizing text with
  | h length ih =>
    by_cases hne : text = []
    · rw [hne, h.empty, h'.empty]
    by_cases hall : ∀ c ∈ text, c.isAlphanum
    · by_cases hstart : ∀ before a b after, text = before ++ a :: b :: after →
          ¬ startsWord a b after.head?
      · rw [h.run text hne hall hstart, h'.run text hne hall hstart]
      · simp only [not_forall, not_not] at hstart
        obtain ⟨before, a, b, after, rfl, hstart⟩ := hstart
        rw [h.start _ _ _ _ hstart, h'.start _ _ _ _ hstart]
        simp only [List.length_append, List.length_cons] at hlength
        rw [ih (before ++ [a]).length (by simp; omega) _ rfl,
          ih (b :: after).length (by simp; omega) _ rfl]
    · simp only [not_forall] at hall
      obtain ⟨c, hc, hseparator⟩ := hall
      obtain ⟨before, after, rfl⟩ := List.append_of_mem hc
      have hseparator : c.isAlphanum = false := eq_false_of_ne_true hseparator
      rw [h.separator _ _ _ hseparator, h'.separator _ _ _ hseparator]
      simp only [List.length_append, List.length_cons] at hlength
      rw [ih before.length (by omega) _ rfl, ih after.length (by omega) _ rfl]

theorem ne_nil_of_mem_words {cs word : List Char} (h : word ∈ words cs) : word ≠ [] := by
  induction cs generalizing word with
  | nil => cases h
  | cons a cs ih =>
    rcases cs with _ | ⟨b, rest⟩
    · rw [List.mem_singleton.mp h]
      exact List.cons_ne_nil _ _
    · rw [words] at h
      cases hrest : words (b :: rest) with
      | nil => exact absurd hrest (words_cons_ne_nil b rest)
      | cons w ws =>
        rw [hrest] at h ih
        simp only at h
        split at h
        · rcases List.mem_cons.mp h with rfl | h
          · exact List.cons_ne_nil _ _
          · exact ih h
        · rcases List.mem_cons.mp h with rfl | h
          · exact List.cons_ne_nil _ _
          · exact ih (List.mem_cons_of_mem w h)

/-- The words hold the letters and digits of the name, in lower case. -/
theorem flatten_tokens (name : List Char) :
    (tokens name).flatten = (name.filter Char.isAlphanum).map Char.toLower := by
  have hcased : ((Text.pieces (fun c => !c.isAlphanum) name).flatMap words).flatten =
      name.filter Char.isAlphanum := by
    have hwords : List.flatten ∘ words = id := funext flatten_words
    rw [List.flatMap_def, List.flatten_flatten, List.map_map, hwords, List.map_id,
      Text.flatten_pieces]
    simp only [Bool.not_not]
  rw [tokens, ← List.map_flatten, hcased]

theorem exists_of_mem_tokens {name word : List Char} (hword : word ∈ tokens name) {c : Char}
    (hc : c ∈ word) : ∃ d : Char, d.isAlphanum ∧ c = d.toLower := by
  have hflat := List.mem_flatten_of_mem hword hc
  rw [flatten_tokens] at hflat
  obtain ⟨d, hd, rfl⟩ := List.mem_map.mp hflat
  exact ⟨d, (List.mem_filter.mp hd).2, rfl⟩

theorem isAlphanum_of_mem_tokens {name word : List Char} (hword : word ∈ tokens name) {c : Char}
    (hc : c ∈ word) : c.isAlphanum := by
  obtain ⟨d, hd, rfl⟩ := exists_of_mem_tokens hword hc
  exact isAlphanum_toLower hd

theorem ne_nil_of_mem_tokens {name word : List Char} (hword : word ∈ tokens name) : word ≠ [] := by
  obtain ⟨cased, hcased, rfl⟩ := List.mem_map.mp hword
  obtain ⟨piece, -, hmem⟩ := List.mem_flatMap.mp hcased
  exact fun hnil => ne_nil_of_mem_words hmem (List.map_eq_nil_iff.mp hnil)

theorem isLower_or_isDigit_of_mem_tokens {name word : List Char} (hword : word ∈ tokens name) :
    ∀ c ∈ word, c.isLower ∨ c.isDigit := by
  intro c hc
  obtain ⟨d, hd, rfl⟩ := exists_of_mem_tokens hword hc
  exact isLower_or_isDigit_toLower hd

/-! ## Snake case -/

/-- The characters of words in snake case. -/
def isSnake (c : Char) : Bool := c.isLower || c.isDigit || c == '_'

theorem isSnake_of_mem_snakeChars {name : List Char} {c : Char} (hc : c ∈ snakeChars name) :
    isSnake c := by
  rcases Text.exists_of_mem_intercalate hc with hc | ⟨word, hword, hc⟩
  · rw [List.mem_singleton.mp hc]
    rfl
  · rcases isLower_or_isDigit_of_mem_tokens hword c hc with h | h
    · rw [isSnake, h, Bool.true_or, Bool.true_or]
    · rw [isSnake, h, Bool.or_true, Bool.true_or]

/-- A name in snake case is empty or starts with a letter or digit. -/
theorem starts_snakeChars {name : List Char} (hne : snakeChars name ≠ []) :
    Text.Starts (fun c => c.isLower ∨ c.isDigit) (snakeChars name) :=
  Text.Starts.intercalate (fun hnil => hne (by rw [snakeChars, hnil]; rfl)) fun _ hword =>
    Text.starts_of_forall (ne_nil_of_mem_tokens hword) (isLower_or_isDigit_of_mem_tokens hword)

/-- And it ends with one. -/
theorem ends_snakeChars {name : List Char} (hne : snakeChars name ≠ []) :
    Text.Ends (fun c => c.isLower ∨ c.isDigit) (snakeChars name) :=
  Text.Ends.intercalate (fun hnil => hne (by rw [snakeChars, hnil]; rfl)) fun _ hword =>
    Text.ends_of_forall (ne_nil_of_mem_tokens hword) (isLower_or_isDigit_of_mem_tokens hword)

theorem tokens_of_lower {word : List Char} (hne : word ≠ [])
    (h : ∀ c ∈ word, c.isLower ∨ c.isDigit) : tokens word = [word] := by
  have hall : ∀ c ∈ word, c.isAlphanum := by
    intro c hc
    rcases h c hc with hlower | hdigit
    · rw [Char.isAlphanum, Char.isAlpha, hlower, Bool.or_true, Bool.true_or]
    · rw [Char.isAlphanum, hdigit, Bool.or_true]
  have hlower : word.map Char.toLower = word := by
    refine (List.map_congr_left fun c hc => ?_).trans (List.map_id' word)
    exact Char.toLower_eq_of_not_isUpper (not_isUpper_of_isLower_or_isDigit (h c hc))
  rw [tokens_run hne hall, hlower]
  intro before a b after hword hstart
  have hb : b ∈ word := by simp [hword]
  exact not_isUpper_of_isLower_or_isDigit (h b hb) (isUpper_of_startsWord hstart)

/-- Words in lower case are what their row is cut into. -/
theorem tokens_intercalate {parts : List (List Char)} (hne : ∀ part ∈ parts, part ≠ [])
    (h : ∀ part ∈ parts, ∀ c ∈ part, c.isLower ∨ c.isDigit) :
    tokens (['_'].intercalate parts) = parts := by
  induction parts with
  | nil => rfl
  | cons part parts ih =>
    obtain ⟨hpartNe, hpartsNe⟩ := List.forall_mem_cons.mp hne
    obtain ⟨hpart, hparts⟩ := List.forall_mem_cons.mp h
    have htokens : tokens part = [part] := tokens_of_lower hpartNe hpart
    cases parts with
    | nil => rw [List.intercalate_singleton, htokens]
    | cons other parts =>
      rw [List.intercalate_cons_cons, List.append_assoc, List.singleton_append,
        tokens_separator rfl, htokens, ih hpartsNe hparts]
      rfl

theorem tokens_snakeChars (name : List Char) : tokens (snakeChars name) = tokens name := by
  apply tokens_intercalate
  · intro word hword
    exact ne_nil_of_mem_tokens hword
  · intro word hword
    exact isLower_or_isDigit_of_mem_tokens hword

theorem toList_snake (name : String) : (snake name).toList = snakeChars name.toList :=
  String.toList_ofList

/-- There is one way to cut a name into words, and each word is one in lower case. Together they
hold all of its letters and digits in their order. The snake case of a name has the same words, and
hence is the same in every casing. -/
theorem tokens_snake :
    (∀ cut, CutsIntoWords cut ↔ cut = tokens) ∧ ∀ name : String,
      (∀ word ∈ tokens name.toList, word ≠ [] ∧ ∀ c ∈ word, c.isLower ∨ c.isDigit) ∧
      (tokens name.toList).flatten = (name.toList.filter Char.isAlphanum).map Char.toLower ∧
      tokens (snake name).toList = tokens name.toList ∧
      snake (snake name) = snake name ∧ pascal (snake name) = pascal name ∧
      camel (snake name) = camel name := by
  constructor
  · intro cut
    constructor
    · intro h
      exact h.unique cutsIntoWords_tokens
    · rintro rfl
      exact cutsIntoWords_tokens
  · intro name
    have hsame : tokens (snake name).toList = tokens name.toList := by
      rw [toList_snake, tokens_snakeChars]
    refine ⟨fun word hword => ?_, flatten_tokens name.toList, hsame, ?_, ?_, ?_⟩
    · exact ⟨ne_nil_of_mem_tokens hword, isLower_or_isDigit_of_mem_tokens hword⟩
    · rw [snake, snakeChars, hsame]
      rfl
    · rw [pascal, pascalChars, hsame]
      rfl
    · rw [camel, camelChars, hsame]
      rfl

example : snake "parseHTTPServer2-größe" = "parse_http_server2_gr_e" := by decide

end RecordDefinitions.Naming
