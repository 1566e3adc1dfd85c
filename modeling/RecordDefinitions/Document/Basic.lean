import RecordDefinitions.Catalogue

/-!
# Documents

A document is what a data text denotes: nothing, a truth value, a number, a
string, a list or an object. An object is written as the list of its members in
order. A text may repeat a key; `merged` keeps the first place and the last
member of every key, at every depth, and documents are looked into only after
that.
-/

namespace RecordDefinitions

/-- A number is a whole number of 64 bits, signed or not, or the bits of a
finite 64-bit binary number. -/
inductive Number where
  | integer (value : Int)
  | real (bits : UInt64)
  deriving DecidableEq, Repr

inductive Document where
  | null
  | bool (value : Bool)
  | number (value : Number)
  | string (value : String)
  | array (items : List Document)
  | object (members : List (String × Document))

namespace Document

instance : Inhabited Document := ⟨null⟩

mutual

/-- Documents are compared member by member, in order. -/
def decEq : (a b : Document) → Decidable (a = b)
  | null, null => isTrue rfl
  | bool a, bool b =>
    if h : a = b then isTrue (h ▸ rfl) else isFalse fun e => h (Document.bool.inj e)
  | number a, number b =>
    if h : a = b then isTrue (h ▸ rfl) else isFalse fun e => h (Document.number.inj e)
  | string a, string b =>
    if h : a = b then isTrue (h ▸ rfl) else isFalse fun e => h (Document.string.inj e)
  | array a, array b =>
    match decEqItems a b with
    | isTrue h => isTrue (h ▸ rfl)
    | isFalse h => isFalse fun e => h (Document.array.inj e)
  | object a, object b =>
    match decEqMembers a b with
    | isTrue h => isTrue (h ▸ rfl)
    | isFalse h => isFalse fun e => h (Document.object.inj e)
  | null, bool _ | null, number _ | null, string _ | null, array _ | null, object _
  | bool _, null | bool _, number _ | bool _, string _ | bool _, array _ | bool _, object _
  | number _, null | number _, bool _ | number _, string _ | number _, array _
  | number _, object _
  | string _, null | string _, bool _ | string _, number _ | string _, array _
  | string _, object _
  | array _, null | array _, bool _ | array _, number _ | array _, string _ | array _, object _
  | object _, null | object _, bool _ | object _, number _ | object _, string _
  | object _, array _ => isFalse nofun

def decEqItems : (a b : List Document) → Decidable (a = b)
  | [], [] => isTrue rfl
  | [], _ :: _ | _ :: _, [] => isFalse nofun
  | a :: as, b :: bs =>
    match decEq a b, decEqItems as bs with
    | isTrue h, isTrue k => isTrue (h ▸ k ▸ rfl)
    | isFalse h, _ => isFalse fun e => h (List.cons.inj e).1
    | _, isFalse k => isFalse fun e => k (List.cons.inj e).2

def decEqMembers : (a b : List (String × Document)) → Decidable (a = b)
  | [], [] => isTrue rfl
  | [], _ :: _ | _ :: _, [] => isFalse nofun
  | (k, a) :: as, (l, b) :: bs =>
    if g : k = l then
      match decEq a b, decEqMembers as bs with
      | isTrue h, isTrue i => isTrue (g ▸ h ▸ i ▸ rfl)
      | isFalse h, _ => isFalse fun e => h (Prod.mk.inj (List.cons.inj e).1).2
      | _, isFalse i => isFalse fun e => i (List.cons.inj e).2
    else isFalse fun e => g (Prod.mk.inj (List.cons.inj e).1).1

end

instance : DecidableEq Document := decEq

/-! ## Repeated keys -/

mutual

/-- The document in which every object has each key once, where it first came,
with the member that came last. -/
def merged : Document → Document
  | null => null
  | bool b => bool b
  | number n => number n
  | string s => string s
  | array items => array (mergedItems items)
  | object members => object (mergedMembers members).toList

def mergedItems : List Document → List Document
  | [] => []
  | d :: ds => merged d :: mergedItems ds

def mergedMembers (members : List (String × Document)) : Catalogue (String × Document) :=
  Catalogue.ofList (mergedPairs members)

def mergedPairs : List (String × Document) → List (String × Document)
  | [] => []
  | (k, d) :: rest => (k, merged d) :: mergedPairs rest

end

mutual

/-- No object inside the document repeats a key. -/
def KeysOnce : Document → Prop
  | null => True
  | bool _ => True
  | number _ => True
  | string _ => True
  | array items => KeysOnceItems items
  | object members => (namesOf members).Nodup ∧ KeysOnceMembers members

def KeysOnceItems : List Document → Prop
  | [] => True
  | d :: ds => KeysOnce d ∧ KeysOnceItems ds

def KeysOnceMembers : List (String × Document) → Prop
  | [] => True
  | (_, d) :: rest => KeysOnce d ∧ KeysOnceMembers rest

end

/-! ## Looking inside -/

/-- The member of an object under a key. -/
def get? : Document → String → Option Document
  | object members, key => (findNamed? key members).map Prod.snd
  | _, _ => none

def asString? : Document → Option String
  | string s => some s
  | _ => none

def asBool? : Document → Option Bool
  | bool b => some b
  | _ => none

def asArray? : Document → Option (List Document)
  | array items => some items
  | _ => none

def asObject? : Document → Option (List (String × Document))
  | object members => some members
  | _ => none

/-- The string under a key, if there is one. -/
def string? (d : Document) (key : String) : Option String := (d.get? key).bind asString?

/-- The truth value under a key, if there is one. -/
def bool? (d : Document) (key : String) : Option Bool := (d.get? key).bind asBool?

/-- The list under a key, if there is one. -/
def array? (d : Document) (key : String) : Option (List Document) := (d.get? key).bind asArray?

/-- The members of the object under a key, if there is one. -/
def object? (d : Document) (key : String) : Option (List (String × Document)) :=
  (d.get? key).bind asObject?

/-- Whether an object has a key, whatever is under it. -/
def has (d : Document) (key : String) : Bool := (d.get? key).isSome

/-- Whether the document is the null document. -/
def isNull : Document → Bool
  | null => true
  | _ => false

theorem isNull_iff {d : Document} : d.isNull ↔ d = .null := by
  cases d <;> simp [isNull]

/-- Whether the document is an object. -/
def isObject : Document → Bool
  | object _ => true
  | _ => false

end Document

end RecordDefinitions
