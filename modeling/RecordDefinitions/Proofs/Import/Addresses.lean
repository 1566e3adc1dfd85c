import RecordDefinitions.Proofs.Import.Place
import RecordDefinitions.Proofs.Text.Pieces

/-!
# The address of a part of a document

The keys and indices on the way to a part are written as a pointer, in which tildes and slashes of
keys are escaped. Read again, the pointer leads the same way, unless a key on it holds what looks
like an escaped octet: percent signs are not escaped, but octets are decoded. Such a key is never
read back, since the text that is read has become shorter.
-/

namespace RecordDefinitions

/-- A step that is read as it is written: its key holds no escaped octet, or its index is in the
range of indices. -/
def PlaceStep.Plain : PlaceStep → Prop
  | .member key => Text.holdsOctet key.toList = false
  | .item index => index < Pointer.placeLimit

namespace Pointer

/-! ## Escaped keys -/

/-- A character of a key in a segment. -/
def escapedChar (c : Char) : List Char :=
  if c = '~' then ['~', '0'] else if c = '/' then ['~', '1'] else [c]

/-- The characters of a key in a segment. -/
def escapedChars (key : List Char) : List Char := key.flatMap escapedChar

theorem toList_escapedSegment (key : String) :
    (escapedSegment key).toList = escapedChars key.toList := String.toList_ofList

theorem escapedChars_cons (c : Char) (key : List Char) :
    escapedChars (c :: key) = escapedChar c ++ escapedChars key := List.flatMap_cons

theorem escapedChar_of_ne {c : Char} (htilde : c ≠ '~') (hslash : c ≠ '/') :
    escapedChar c = [c] := by
  rw [escapedChar, if_neg htilde, if_neg hslash]

theorem slash_not_mem_escapedChars (key : List Char) : '/' ∉ escapedChars key := by
  intro h
  obtain ⟨c, -, hc⟩ := List.mem_flatMap.mp h
  unfold escapedChar at hc
  split at hc
  · simp at hc
  · split at hc
    · simp at hc
    next hslash =>
      rw [List.mem_singleton] at hc
      exact hslash hc.symm

/-! ## Tildes resolved -/

theorem replacing_of_ne {code character c : Char} (h : c ≠ '~') (cs : List Char) :
    replacing code character (c :: cs) = c :: replacing code character cs := by
  rw [replacing]
  rintro d rest heq -
  exact h heq

theorem unescaped_of_ne {c : Char} (h : c ≠ '~') (cs : List Char) :
    unescaped (c :: cs) = c :: unescaped cs := by
  rw [unescaped, replacing_of_ne h, replacing_of_ne h, unescaped]

theorem unescaped_tilde (cs : List Char) : unescaped ('~' :: '0' :: cs) = '~' :: unescaped cs := by
  simp [unescaped, replacing, replacing_of_ne]

theorem unescaped_slash (cs : List Char) : unescaped ('~' :: '1' :: cs) = '/' :: unescaped cs := by
  simp [unescaped, replacing, replacing_of_ne]

theorem unescaped_escapedChars (key : List Char) : unescaped (escapedChars key) = key := by
  induction key with
  | nil => rfl
  | cons c key ih =>
    rw [escapedChars_cons]
    by_cases htilde : c = '~'
    · subst htilde
      exact (unescaped_tilde _).trans (congrArg _ ih)
    · by_cases hslash : c = '/'
      · subst hslash
        exact (unescaped_slash _).trans (congrArg _ ih)
      · rw [escapedChar_of_ne htilde hslash, List.singleton_append, unescaped_of_ne htilde, ih]

theorem replacing_cons (code character c : Char) (cs : List Char) :
    replacing code character (c :: cs) = c :: replacing code character cs ∨
      ∃ rest, cs = code :: rest ∧
        replacing code character (c :: cs) = character :: replacing code character rest := by
  by_cases htilde : c = '~'
  · subst htilde
    cases cs with
    | nil => exact .inl rfl
    | cons d rest =>
      rw [replacing]
      split
      next hcode => exact .inr ⟨rest, by rw [hcode], rfl⟩
      · exact .inl rfl
  · exact .inl (replacing_of_ne htilde cs)

theorem length_replacing_cons_le {code : Char} (hcode : code ≠ '~') (character c : Char)
    (cs : List Char) :
    (replacing code character (c :: cs)).length ≤ (replacing code character cs).length + 1 := by
  rcases replacing_cons code character c cs with heq | ⟨rest, rfl, heq⟩
  · have hlength := congrArg List.length heq
    rw [List.length_cons] at hlength
    omega
  · rw [heq, replacing_of_ne hcode, List.length_cons, List.length_cons]
    omega

/-- Resolved, a text is longer by one character at most when it is so before. -/
theorem length_unescaped_cons_le (c : Char) (cs : List Char) :
    (unescaped (c :: cs)).length ≤ (unescaped cs).length + 1 := by
  unfold unescaped
  rcases replacing_cons '1' '/' c cs with heq | ⟨rest, rfl, heq⟩
  · rw [heq]
    exact length_replacing_cons_le (by decide) _ _ _
  · rw [heq, replacing_of_ne (by decide), replacing_of_ne (by decide), replacing_of_ne (by decide),
      List.length_cons, List.length_cons]
    omega

/-! ## Octets in escaped keys -/

theorem octet?_percent (a b : Char) (rest : List Char) :
    Text.octet? ('%' :: a :: b :: rest) =
      (Decimal.ofBase?.digitIn 16 a).bind fun x =>
        (Decimal.ofBase?.digitIn 16 b).map fun y => (16 * x + y, rest) := by
  rw [Text.octet?, Decimal.ofBase?, if_neg (List.cons_ne_nil _ _)]
  cases ha : Decimal.ofBase?.digitIn 16 a <;> cases hb : Decimal.ofBase?.digitIn 16 b <;>
    simp [ha, hb]

/-- A character is kept, or it is no digit and stands behind a tilde under another name. -/
theorem escapedChar_cases (c : Char) :
    escapedChar c = [c] ∨ Decimal.ofBase?.digitIn 16 c = none ∧ c ≠ '%' ∧
      ∃ d, escapedChar c = ['~', d] ∧ d ≠ '%' ∧ ∀ cs, unescaped ('~' :: d :: cs) = c :: unescaped cs := by
  by_cases htilde : c = '~'
  · subst htilde
    exact .inr ⟨by decide, by decide, '0', rfl, by decide, unescaped_tilde⟩
  · by_cases hslash : c = '/'
    · subst hslash
      exact .inr ⟨by decide, by decide, '1', rfl, by decide, unescaped_slash⟩
    · exact .inl (escapedChar_of_ne htilde hslash)

/-- An escaped key starts with an escaped octet if and only if the key does. -/
theorem octet?_escapedChars (key : List Char) :
    Text.octet? (escapedChars key) =
      (Text.octet? key).map fun (octet, rest) => (octet, escapedChars rest) := by
  have htilde : Decimal.ofBase?.digitIn 16 '~' = none := by decide
  rcases key with _ | ⟨c, key⟩
  · rfl
  by_cases hc : c = '%'
  · subst hc
    have hcons (key : List Char) : escapedChars ('%' :: key) = '%' :: escapedChars key := rfl
    rcases key with _ | ⟨a, _ | ⟨b, rest⟩⟩
    · rfl
    · rcases escapedChar_cases a with ha | ⟨-, -, d, ha, -⟩
      · rw [hcons, escapedChars_cons, ha]
        rfl
      · rw [hcons, escapedChars_cons, ha]
        exact octet?_percent '~' d []
    · rw [hcons, escapedChars_cons, escapedChars_cons, octet?_percent]
      rcases escapedChar_cases a with ha | ⟨hdigit, -, d, ha, -⟩
      · rcases escapedChar_cases b with hb | ⟨hdigit, -, d, hb, -⟩
        · rw [ha, hb, List.singleton_append, List.singleton_append, octet?_percent]
          cases Decimal.ofBase?.digitIn 16 a <;> cases Decimal.ofBase?.digitIn 16 b <;> rfl
        · rw [ha, hb, hdigit, List.singleton_append, List.cons_append, octet?_percent, htilde]
          cases Decimal.ofBase?.digitIn 16 a <;> rfl
      · rw [ha, hdigit, List.cons_append, List.cons_append, octet?_percent, htilde]
        rfl
  · rw [Text.octet?_of_ne hc, escapedChars_cons]
    rcases escapedChar_cases c with hself | ⟨-, -, d, hescaped, -⟩
    · rw [hself]
      exact Text.octet?_of_ne hc _
    · rw [hescaped]
      exact Text.octet?_of_ne (by decide) _

theorem holdsOctet_escapedChars (key : List Char) :
    Text.holdsOctet (escapedChars key) = Text.holdsOctet key := by
  induction key with
  | nil => rfl
  | cons c key ih =>
    have hoctet := octet?_escapedChars (c :: key)
    rw [escapedChars_cons] at hoctet ⊢
    rcases escapedChar_cases c with hself | ⟨-, hc, d, hescaped, hd, -⟩
    · rw [hself, List.singleton_append] at hoctet ⊢
      rw [Text.holdsOctet, Text.holdsOctet, hoctet, ih, Option.isSome_map]
    · rw [hescaped, Text.holdsOctet_of_ne hc, ← ih]
      exact (Text.holdsOctet_of_ne (by decide) _).trans (Text.holdsOctet_of_ne hd _)

/-! ## Keys that are read back -/

/-- What follows the octets of a character in an escaped key is an escaped key. -/
theorem exists_of_furtherOctets? {count bits n : Nat} {key rest : List Char}
    (h : Text.furtherOctets? count bits (escapedChars key) = some (n, rest)) :
    ∃ key', rest = escapedChars key' ∧ key'.length ≤ key.length := by
  induction count generalizing bits key with
  | zero =>
    obtain ⟨-, rfl⟩ := Prod.mk.inj (Option.some.inj h)
    exact ⟨key, rfl, Nat.le_refl _⟩
  | succ count ih =>
    rw [Text.furtherOctets?, octet?_escapedChars] at h
    cases hoctet : Text.octet? key with
    | none =>
      rw [hoctet] at h
      cases h
    | some found =>
      obtain ⟨octet, after⟩ := found
      simp only [hoctet, Option.map_some] at h
      split at h
      · obtain ⟨key', hrest, hlength⟩ := ih h
        have hshorter := Text.length_of_octet? hoctet
        exact ⟨key', hrest, by omega⟩
      · cases h

theorem exists_of_character? {octet : Nat} {c : Char} {key rest : List Char}
    (h : Text.character? octet (escapedChars key) = some (c, rest)) :
    ∃ key', rest = escapedChars key' ∧ key'.length ≤ key.length := by
  have hassembled {least count bits : Nat}
      (h : Text.assembled? least count bits (escapedChars key) = some (c, rest)) :
      ∃ key', rest = escapedChars key' ∧ key'.length ≤ key.length := by
    unfold Text.assembled? at h
    split at h
    next hfurther =>
      split at h
      · obtain ⟨-, rfl⟩ := Prod.mk.inj (Option.some.inj h)
        exact exists_of_furtherOctets? hfurther
      · cases h
    · cases h
  unfold Text.character? at h
  split at h
  · exact hassembled h
  split at h
  · cases h
  split at h
  · exact hassembled h
  split at h
  · exact hassembled h
  split at h
  · exact hassembled h
  · cases h

/-- Without an octet at its start, a key is read back from its rest and one more character. -/
theorem exists_of_decoded?_kept {c : Char} {key cs : List Char} (hkept : Text.octet? (c :: key) = none)
    (h : Text.decoded? (escapedChars (c :: key)) = some cs) :
    ∃ others, Text.decoded? (escapedChars key) = some others ∧
      (unescaped cs).length ≤ (unescaped others).length + 1 := by
  have hoctet := octet?_escapedChars (c :: key)
  rw [hkept, escapedChars_cons, Option.map_none] at hoctet
  rw [escapedChars_cons] at h
  rcases escapedChar_cases c with hself | ⟨-, -, d, hescaped, hd, hresolved⟩
  · rw [hself, List.singleton_append] at h hoctet
    rw [Text.decoded?_of_octet?_none hoctet, Option.map_eq_some_iff] at h
    obtain ⟨others, hothers, rfl⟩ := h
    exact ⟨others, hothers, length_unescaped_cons_le c others⟩
  · have htilde (cs : List Char) := Text.octet?_of_ne (c := '~') (by decide) cs
    have hcode (cs : List Char) := Text.octet?_of_ne hd cs
    rw [hescaped, List.cons_append, Text.decoded?_of_octet?_none (htilde _), List.cons_append,
      Text.decoded?_of_octet?_none (hcode _), Option.map_map, Option.map_eq_some_iff] at h
    obtain ⟨others, hothers, rfl⟩ := h
    exact ⟨others, hothers, Nat.le_of_eq (congrArg List.length (hresolved others))⟩

/-- An octet at the start of a key is read back as one character at most, with the octets that
follow it. -/
theorem exists_of_decoded?_octet {octet : Nat} {key after cs : List Char}
    (hoctet : Text.octet? key = some (octet, after))
    (h : Text.decoded? (escapedChars key) = some cs) :
    ∃ rest others, rest.length + 3 ≤ key.length ∧
      Text.decoded? (escapedChars rest) = some others ∧
      (unescaped cs).length ≤ (unescaped others).length + 1 := by
  have hescaped := octet?_escapedChars key
  rw [hoctet, Option.map_some] at hescaped
  rw [Text.decoded?_of_octet?_some hescaped, Option.bind_eq_some_iff] at h
  obtain ⟨⟨d, behind⟩, hd, h⟩ := h
  obtain ⟨others, hothers, rfl⟩ := Option.map_eq_some_iff.mp h
  obtain ⟨rest, rfl, hrest⟩ := exists_of_character? hd
  have hthree := Text.length_octet? hoctet
  exact ⟨rest, others, by omega, hothers, length_unescaped_cons_le d others⟩

/-- An escaped key is read back as a text that is no longer, and shorter if an octet is decoded. -/
theorem length_unescaped_decoded {key cs : List Char}
    (h : Text.decoded? (escapedChars key) = some cs) :
    (unescaped cs).length ≤ key.length ∧
      (Text.holdsOctet key → (unescaped cs).length < key.length) := by
  -- By the length of the key, since decoding goes on several characters behind an octet.
  match key with
  | [] =>
    rw [escapedChars, List.flatMap_nil, Text.decoded?, Option.some.injEq] at h
    subst h
    exact ⟨Nat.le_refl _, fun hholds => absurd hholds (by decide)⟩
  | c :: key =>
    cases hoctet : Text.octet? (c :: key) with
    | none =>
      obtain ⟨others, hothers, hlonger⟩ := exists_of_decoded?_kept hoctet h
      obtain ⟨hle, hlt⟩ := length_unescaped_decoded hothers
      rw [Text.holdsOctet, hoctet, List.length_cons]
      refine ⟨by omega, fun hholds => ?_⟩
      have := hlt hholds
      omega
    | some found =>
      obtain ⟨rest, others, hrest, hothers, hlonger⟩ := exists_of_decoded?_octet hoctet h
      have hle := (length_unescaped_decoded hothers).1
      exact ⟨by omega, fun _ => by omega⟩
termination_by key.length
decreasing_by
  all_goals (simp_all only [List.length_cons]; omega)

theorem keyOf?_escapedSegment_iff (key : String) :
    keyOf? (escapedSegment key).toList = some key ↔ Text.holdsOctet key.toList = false := by
  rw [toList_escapedSegment]
  constructor
  · intro h
    obtain ⟨cs, hcs, hkey⟩ := Option.map_eq_some_iff.mp h
    have hlength : (unescaped cs).length = key.toList.length := by
      rw [← hkey, String.toList_ofList]
    cases hholds : Text.holdsOctet key.toList with
    | false => rfl
    | true =>
      have hlt := (length_unescaped_decoded hcs).2 hholds
      omega
  · intro h
    rw [keyOf?, Text.decoded?_of_not_holdsOctet ((holdsOctet_escapedChars _).trans h),
      Option.map_some, unescaped_escapedChars, String.ofList_toList]

/-! ## Indices -/

theorem digitIn_of_isDigit {c : Char} (h : c.isDigit) :
    Decimal.ofBase?.digitIn 10 c = some (Decimal.digitValue c) := by
  have hrange : 48 ≤ c.toNat ∧ c.toNat ≤ 57 := by
    simpa [Char.isDigit, UInt32.le_iff_toNat_le] using h
  have hsmall : c.toNat - 48 < 10 := by omega
  simp only [Decimal.ofBase?.digitIn, if_pos h, if_pos hsmall, Decimal.digitValue]

theorem ofBase?_digits (n : Nat) : Decimal.ofBase? 10 (Decimal.digits n) = some n := by
  have hfold (cs : List Char) (h : ∀ c ∈ cs, c.isDigit) (start : Nat) :
      cs.foldlM (fun n c => (Decimal.ofBase?.digitIn 10 c).map (10 * n + ·)) start =
        some (cs.foldl (fun n c => 10 * n + Decimal.digitValue c) start) := by
    induction cs generalizing start with
    | nil => rfl
    | cons c cs ih =>
      rw [List.foldlM_cons, digitIn_of_isDigit (h c List.mem_cons_self)]
      exact ih (fun c hc => h c (List.mem_cons_of_mem _ hc)) _
  rw [Decimal.ofBase?, if_neg (Decimal.digits_ne_nil n),
    hfold _ (fun _ => Decimal.isDigit_of_mem_digits)]
  exact congrArg some (Decimal.value_digits n)

theorem placeOf?_text (n : Nat) :
    placeOf? (Decimal.text n) = if n < placeLimit then some n else none := by
  have hplus : ∀ ds, Decimal.digits n ≠ '+' :: ds := by
    intro ds heq
    have hdigit : '+'.isDigit := Decimal.isDigit_of_mem_digits (heq ▸ List.mem_cons_self)
    exact absurd hdigit (by decide)
  rw [placeOf?, Decimal.text, String.toList_ofList]
  split
  · rename_i heq
    exact absurd heq (hplus _)
  · rw [ofBase?_digits, Option.filter_some]
    by_cases h : n < placeLimit
    · simp only [h, decide_true, if_true]
    · simp only [h, decide_false, Bool.false_eq_true, if_false]

/-- An index is read back as it is written. -/
theorem keyOf?_digits (n : Nat) : keyOf? (Decimal.digits n) = some (Decimal.text n) := by
  have hne {c : Char} (h : ¬ c.isDigit) : c ∉ Decimal.digits n :=
    fun hmem => h (Decimal.isDigit_of_mem_digits hmem)
  have hplain : unescaped (Decimal.digits n) = Decimal.digits n := by
    have hall (cs : List Char) (h : '~' ∉ cs) : unescaped cs = cs := by
      induction cs with
      | nil => rfl
      | cons c cs ih =>
        rw [List.mem_cons, not_or] at h
        rw [unescaped_of_ne (Ne.symm h.1), ih h.2]
    exact hall _ (hne (by decide))
  rw [keyOf?, Text.decoded?_of_not_mem (hne (by decide)), Option.map_some, hplain]
  rfl

/-! ## Addresses -/

/-- The segment that a step is written as. -/
def segment : PlaceStep → List Char
  | .member key => escapedChars key.toList
  | .item index => Decimal.digits index

theorem slash_not_mem_segment (step : PlaceStep) : '/' ∉ segment step := by
  cases step with
  | member key => exact slash_not_mem_escapedChars key.toList
  | item index => exact fun h => absurd (Decimal.isDigit_of_mem_digits h) (by decide)

theorem toList_ofWay (way : List PlaceStep) :
    (ofWay way).toList = way.flatMap fun step => '/' :: segment step := by
  rw [ofWay, String.toList_join, List.flatMap_map]
  congr 1
  funext step
  cases step with
  | member key => simp [segment, toList_escapedSegment]
  | item index => simp [segment, Decimal.text]

/-- A pointer is cut into the segments that it was written from. -/
theorem segments?_ofWay (way : List PlaceStep) : segments? (ofWay way) = some (way.map segment) := by
  rw [segments?, toList_ofWay]
  cases way with
  | nil => rfl
  | cons step way =>
    have hjoined (step : PlaceStep) (way : List PlaceStep) :
        segment step ++ way.flatMap (fun step => '/' :: segment step) =
          Text.joined '/' ((step :: way).map segment) := by
      induction way generalizing step with
      | nil => rw [List.flatMap_nil, List.append_nil]; rfl
      | cons next way ih =>
        rw [List.flatMap_cons, List.cons_append, ih next]
        rfl
    have hslash : ∀ part ∈ (step :: way).map segment, '/' ∉ part := by
      intro part hpart
      obtain ⟨step, -, rfl⟩ := List.mem_map.mp hpart
      exact slash_not_mem_segment step
    have hpieces := Text.pieces_joined (by simp) hslash
    rw [List.flatMap_cons, List.cons_append, hjoined]
    exact congrArg some hpieces

variable {d x : Document} {step : PlaceStep} {way : List PlaceStep}

/-- The segment of a step leads to the step if and only if the step is plain. -/
theorem placeStep?_segment_iff (h : partAt? d step = some x) :
    (keyOf? (segment step)).bind (placeStep? d) = some step ↔ step.Plain := by
  cases step with
  | member key =>
    cases d with
    | object members =>
      have hmember (key' : String) : placeStep? (.object members) key' = some (.member key') := rfl
      simp only [segment, ← toList_escapedSegment, PlaceStep.Plain, ← keyOf?_escapedSegment_iff]
      cases keyOf? (escapedSegment key).toList <;> simp [hmember]
    | _ => cases h
  | item index =>
    cases d with
    | array items =>
      have hitem (key : String) : placeStep? (.array items) key = (placeOf? key).map .item := rfl
      simp only [segment, keyOf?_digits, Option.bind_some, hitem, placeOf?_text, PlaceStep.Plain]
      by_cases hindex : index < placeLimit <;> simp [hindex]
    | _ => cases h

/-- Segments lead the way that they were written from if and only if its steps are plain. -/
theorem waySteps?_segments_iff (h : way.foldlM partAt? d = some x) :
    waySteps? d (way.map segment) = some way ↔ ∀ step ∈ way, step.Plain := by
  induction way generalizing d with
  | nil => simp [waySteps?]
  | cons step way ih =>
    rw [List.foldlM_cons] at h
    obtain ⟨next, hnext, hrest⟩ := Option.bind_eq_some_iff.mp h
    rw [List.forall_mem_cons, ← placeStep?_segment_iff hnext, ← ih hrest, List.map_cons, waySteps?]
    constructor
    · intro hway
      obtain ⟨key, hkey, hway⟩ := Option.bind_eq_some_iff.mp hway
      obtain ⟨step', hstep, hway⟩ := Option.bind_eq_some_iff.mp hway
      obtain ⟨next', hnext', hway⟩ := Option.bind_eq_some_iff.mp hway
      obtain ⟨way', hway', heq⟩ := Option.bind_eq_some_iff.mp hway
      obtain ⟨rfl, rfl⟩ := List.cons.inj (Option.some.inj heq)
      rw [step?_of_placeStep? hstep, hnext] at hnext'
      obtain rfl := Option.some.inj hnext'
      exact ⟨Option.bind_eq_some_iff.mpr ⟨key, hkey, hstep⟩, hway'⟩
    · rintro ⟨hstep, hway⟩
      obtain ⟨key, hkey, hstep⟩ := Option.bind_eq_some_iff.mp hstep
      simp only [hkey, hstep, step?_of_placeStep? hstep, hnext, hway, Option.bind_eq_bind,
        Option.bind_some]
      rfl

/-- What a pointer finds is found on the way that it leads. -/
theorem find?_of_way? {pointer : String} (h : way? d pointer = some way) :
    find? d pointer = way.foldlM partAt? d := by
  obtain ⟨segments, hsegments, hway⟩ := Option.bind_eq_some_iff.mp h
  rw [find?, hsegments]
  change segments.foldlM _ d = _
  clear h hsegments
  induction segments generalizing d way with
  | nil =>
    cases hway
    rfl
  | cons segment segments ih =>
    obtain ⟨key, hkey, hway⟩ := Option.bind_eq_some_iff.mp hway
    obtain ⟨step, hstep, hway⟩ := Option.bind_eq_some_iff.mp hway
    obtain ⟨next, hnext, hway⟩ := Option.bind_eq_some_iff.mp hway
    obtain ⟨way', hway', heq⟩ := Option.bind_eq_some_iff.mp hway
    obtain rfl := Option.some.inj heq
    rw [List.foldlM_cons, List.foldlM_cons, ← step?_of_placeStep? hstep, hkey]
    change (step? d key).bind _ = (step? d key).bind _
    rw [hnext]
    exact ih hway'

/-- A part of a document is addressed by the pointer for the way to it if and only if every step on
the way is plain: no key on it holds what looks like an escaped octet. Otherwise the pointer leads
another way, if it leads anywhere. -/
theorem way_ofWay_iff (h : way.foldlM partAt? d = some x) :
    (way? d (ofWay way) = some way ↔ ∀ step ∈ way, step.Plain) ∧
      ((∀ step ∈ way, step.Plain) → find? d (ofWay way) = some x) := by
  have hiff : way? d (ofWay way) = some way ↔ ∀ step ∈ way, step.Plain := by
    rw [way?, segments?_ofWay, Option.bind_some]
    exact waySteps?_segments_iff h
  exact ⟨hiff, fun hplain => (find?_of_way? (hiff.mpr hplain)).trans h⟩

/-- Keys that are empty, hold slashes, tildes and percent signs, or look escaped already. -/
def oddDocument : Document := .object
  [("", .bool true),
    ("a/b~1", .array [.null, .object [("%", .null), ("100%zz~0", .array [.string "é"])]])]

theorem way_ofWay_iff_odd :
    [.member "a/b~1", .item 1, .member "100%zz~0", .item 0].foldlM partAt? oddDocument =
      some (.string "é") ∧
    ofWay [.member "a/b~1", .item 1, .member "100%zz~0", .item 0] = "/a~1b~01/1/100%zz~00/0" ∧
    way? oddDocument "/a~1b~01/1/100%zz~00/0" =
      some [.member "a/b~1", .item 1, .member "100%zz~0", .item 0] ∧
    find? oddDocument "/a~1b~01/1/100%zz~00/0" = some (.string "é") := by
  have hpart : [.member "a/b~1", .item 1, .member "100%zz~0", .item 0].foldlM partAt? oddDocument =
      some (.string "é") := by rfl
  have hpointer : ofWay [.member "a/b~1", .item 1, .member "100%zz~0", .item 0] =
      "/a~1b~01/1/100%zz~00/0" := by decide +kernel
  obtain ⟨hiff, hfind⟩ := way_ofWay_iff hpart
  have hplain : ∀ step ∈ [.member "a/b~1", .item 1, .member "100%zz~0", .item 0],
      PlaceStep.Plain step := by
    simp only [List.forall_mem_cons, PlaceStep.Plain]
    refine ⟨by decide, by decide, by decide, by decide, by simp⟩
  rw [hpointer] at hiff hfind
  exact ⟨hpart, hpointer, hiff.mpr hplain, hfind hplain⟩

/-- A key with an octet in it is written as it is, and is not found. -/
theorem spaced_not_found :
    [.member "a%20b"].foldlM partAt? (.object [("a%20b", .bool true)]) = some (.bool true) ∧
    ofWay [.member "a%20b"] = "/a%20b" ∧
    find? (.object [("a%20b", .bool true)]) "/a%20b" = none := by
  exact ⟨rfl, by decide +kernel, by decide +kernel⟩

end Pointer

end RecordDefinitions
