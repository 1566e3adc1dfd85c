/-!
# YAML tags

The tag that stands before a node. Its characters may be written as escaped
octets, and nobody checks that these spell characters: an octet sequence only has
to have the shape of UTF-8. So a tag is a list of octets and not a text.
-/

namespace RecordDefinitions.Yaml

/-- A tag, or a part of one. -/
structure Tag where
  octets : List UInt8
  deriving DecidableEq

namespace Tag

/-- The tag that a text spells. -/
def ofText (text : String) : Tag := ⟨text.toList.flatMap String.utf8EncodeChar⟩

/-- The tag of a built-in type. -/
def core (name : String) : Tag := ofText ("tag:yaml.org,2002:" ++ name)

/-- The tag that is a sole exclamation mark. -/
def mark : Tag := ofText "!"

/-- The tag that starts with one part and ends with another. -/
def join (first second : Tag) : Tag := ⟨first.octets ++ second.octets⟩

/-- The part of a tag before its first zero octet, which ends it. -/
def beforeZero (t : Tag) : Tag := ⟨t.octets.takeWhile (· ≠ 0)⟩

/-- Whether a tag starts with an exclamation mark. -/
def isMarked (t : Tag) : Bool := t.octets.head? == some 0x21

/-- Whether a tag is the name of a kind of thing that only its document knows: an
exclamation mark and a text, which may be empty. Octets that are no text name
nothing. -/
def isOwn (t : Tag) : Bool := t.isMarked && t.octets.tail.toByteArray.validateUTF8

/-- The document's own tags are among those with an exclamation mark in front. -/
theorem isMarked_of_isOwn {t : Tag} (h : t.isOwn = true) : t.isMarked = true := by
  simp only [isOwn, Bool.and_eq_true] at h
  exact h.1

/-- The tags of built-in types have no exclamation mark in front. -/
theorem isMarked_core (name : String) : (core name).isMarked = false := by
  have h : "tag:yaml.org,2002:".toList = 't' :: "ag:yaml.org,2002:".toList := by decide
  simp [core, ofText, isMarked, h, String.utf8EncodeChar]

/-- So none of them is the document's own. -/
theorem isOwn_core (name : String) : (core name).isOwn = false := by
  simp [isOwn, isMarked_core]

/-- No zero octet is left before the first one. -/
theorem zero_not_mem_beforeZero (t : Tag) : 0 ∉ t.beforeZero.octets := by
  intro h
  unfold beforeZero at h
  simpa using List.all_eq_true.mp List.all_takeWhile 0 h

/-- A tag without zero octets is whole. -/
theorem beforeZero_eq_self {t : Tag} (h : 0 ∉ t.octets) : t.beforeZero = t := by
  obtain ⟨octets⟩ := t
  simp only [beforeZero, mk.injEq]
  induction octets with
  | nil => rfl
  | cons o os ih =>
    simp only [List.mem_cons, not_or] at h
    rw [List.takeWhile_cons_of_pos (by simpa using Ne.symm h.1), ih h.2]

end Tag

end RecordDefinitions.Yaml
