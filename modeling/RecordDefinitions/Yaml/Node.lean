import RecordDefinitions.Yaml.Lexer

/-!
# YAML nodes

The one document of a YAML text as a tree of nodes: scalars, sequences, mappings
and aliases. A node may carry an anchor. An alias stands for the node with the
anchor of its name; which one that is gets decided where the alias stands, and is
kept as a number.
-/

namespace RecordDefinitions.Yaml

inductive Node where
  | alias (anchor : Nat)
  | scalar (anchor : Option Nat) (value : Scalar)
  | sequence (anchor : Option Nat) (tag : Option Tag) (items : List Node)
  | mapping (anchor : Option Nat) (tag : Option Tag) (entries : List (Node × Node))

/-- The node of a value that is not written. -/
def Node.missing : Node := .scalar none .missing

/-- What is known while a text is read from left to right. -/
structure Reading where
  rest : List Token
  /-- What the tag handles stand for. -/
  handles : List (String × Tag)
  /-- The numbers of the anchors so far, each name once. -/
  anchors : List (String × Nat)

abbrev Read := StateT Reading (Except Fault)

namespace Read

def fail {α : Type} (problem : String) : Read α := throw ⟨problem, none⟩

/-- The next token. -/
def next? : Read (Option Token) := return (← get).rest.head?

/-- Pass the next token. -/
def advance : Read Unit := modify fun r => { r with rest := r.rest.tail }

/-- Whether the next token is one of some tokens. -/
def atOneOf (ts : List Token) : Read Bool := return (← next?).any ts.contains

/-- Pass the next token if it is a certain one. -/
def passed (t : Token) : Read Bool := do
  if ← atOneOf [t] then
    advance
    return true
  else return false

/-- Pass a token that has to come. -/
def expect (t : Token) (problem : String) : Read Unit := do
  if !(← passed t) then fail problem

/-! ## Anchors and tags -/

/-- Give an anchor its number, which is the count of the names before it. -/
def addAnchor (name : String) : Read Nat := do
  let r ← get
  let number := r.anchors.length
  set { r with anchors := (name, number) :: r.anchors.filter (·.1 ≠ name) }
  return number

/-- The number of the anchor that an alias names. -/
def anchorOf (name : String) : Read Nat := do
  match (← get).anchors.lookup name with
  | some number => return number
  | none => fail "unknown anchor"

/-- The tag that a handle and a suffix stand for. -/
def tagOf (handle : String) (suffix : Tag) : Read Tag := do
  if handle.isEmpty then return suffix
  match (← get).handles.lookup handle with
  | some expansion => return expansion.join suffix
  | none => fail "undefined tag handle"

/-- An anchor at this place, if there is one. -/
def anchor? : Read (Option Nat) := do
  match ← next? with
  | some (.anchor name) =>
    advance
    return some (← addAnchor name)
  | _ => return none

/-- A tag at this place, if there is one. -/
def tag? : Read (Option Tag) := do
  match ← next? with
  | some (.tag handle suffix) =>
    advance
    return some (← tagOf handle suffix)
  | _ => return none

/-- The anchor and the tag of a node, in either order. -/
def properties : Read (Option Nat × Option Tag) := do
  match ← anchor? with
  | some a => return (some a, ← tag?)
  | none =>
    let tag ← tag?
    return (← anchor?, tag)

/-- A node of which nothing but its anchor or tag is written. -/
def bare (anchor : Option Nat) (tag : Option Tag) : Read Node :=
  if anchor.isSome || tag.isSome then return .scalar anchor ⟨tag, .plain, ""⟩
  else fail "expected a node"

/-! ## Nodes

Every function below consumes a token before it calls one that consumes none, so
a multiple of the number of tokens bounds the depth of the calls. -/

mutual

/-- One node. In block style it may be a block; `hanging` items are those of a
sequence that is not indented below its key. -/
def node (fuel : Nat) (block hanging : Bool) : Read Node :=
  match fuel with
  | 0 => fail "the text is nested too deeply"
  | fuel + 1 => do
    match ← next? with
    | some (.alias name) =>
      advance
      return .alias (← anchorOf name)
    | _ => do
      let (anchor, tag) ← properties
      match ← next? with
      | some .blockEntry =>
        if hanging then return .sequence anchor tag (← hangingItems fuel)
        else return ← bare anchor tag
      | some (.scalar style text) =>
        advance
        return .scalar anchor ⟨tag, style, text⟩
      | some .flowSequenceStart =>
        advance
        return .sequence anchor tag (← flowItems fuel true)
      | some .flowMappingStart =>
        advance
        return .mapping anchor tag (← flowEntries fuel true)
      | some .blockSequenceStart =>
        if block then
          advance
          return .sequence anchor tag (← blockItems fuel)
        else return ← bare anchor tag
      | some .blockMappingStart =>
        if block then
          advance
          return .mapping anchor tag (← blockEntries fuel)
        else return ← bare anchor tag
      | _ => return ← bare anchor tag

/-- A node, or the missing node where one of some tokens follows. -/
def nodeUnless (stops : List Token) (fuel : Nat) (block hanging : Bool) : Read Node :=
  match fuel with
  | 0 => fail "the text is nested too deeply"
  | fuel + 1 => do
    if ← atOneOf stops then return .missing else node fuel block hanging

/-- The items of a sequence in block style and its end. -/
def blockItems (fuel : Nat) : Read (List Node) :=
  match fuel with
  | 0 => fail "the text is nested too deeply"
  | fuel + 1 => do
    if ← passed .blockEnd then return []
    expect .blockEntry "expected a hyphen"
    let item ← nodeUnless [.blockEntry, .blockEnd] fuel true false
    return item :: (← blockItems fuel)

/-- The items of a sequence that is not indented. -/
def hangingItems (fuel : Nat) : Read (List Node) :=
  match fuel with
  | 0 => fail "the text is nested too deeply"
  | fuel + 1 => do
    if !(← passed .blockEntry) then return []
    let item ← nodeUnless [.blockEntry, .key, .value, .blockEnd] fuel true false
    return item :: (← hangingItems fuel)

/-- The entries of a mapping in block style and its end. -/
def blockEntries (fuel : Nat) : Read (List (Node × Node)) :=
  match fuel with
  | 0 => fail "the text is nested too deeply"
  | fuel + 1 => do
    if ← passed .blockEnd then return []
    expect .key "expected a key"
    let stops : List Token := [.key, .value, .blockEnd]
    let key ← nodeUnless stops fuel true true
    let value ← if ← passed .value then nodeUnless stops fuel true true else pure Node.missing
    return (key, value) :: (← blockEntries fuel)

/-- The items of a sequence in flow style and its end. -/
def flowItems (fuel : Nat) (first : Bool) : Read (List Node) :=
  match fuel with
  | 0 => fail "the text is nested too deeply"
  | fuel + 1 => do
    if ← passed .flowSequenceEnd then return []
    if !first then
      expect .flowEntry "expected a comma or a closing bracket"
      if ← passed .flowSequenceEnd then return []
    let item ← if ← passed .key then flowPair fuel else node fuel false false
    return item :: (← flowItems fuel false)

/-- The only entry of a mapping that is written as an item of a sequence. Where
its key is missing, the token that shows this is passed. -/
def flowPair (fuel : Nat) : Read Node :=
  match fuel with
  | 0 => fail "the text is nested too deeply"
  | fuel + 1 => do
    let key ←
      if ← atOneOf [.value, .flowEntry, .flowSequenceEnd] then
        advance
        pure Node.missing
      else node fuel false false
    let value ←
      if ← passed .value then nodeUnless [.flowEntry, .flowSequenceEnd] fuel false false
      else pure Node.missing
    return .mapping none none [(key, value)]

/-- The entries of a mapping in flow style and its end. -/
def flowEntries (fuel : Nat) (first : Bool) : Read (List (Node × Node)) :=
  match fuel with
  | 0 => fail "the text is nested too deeply"
  | fuel + 1 => do
    if ← passed .flowMappingEnd then return []
    if !first then
      expect .flowEntry "expected a comma or a closing brace"
      if ← passed .flowMappingEnd then return []
    if ← passed .key then
      let key ← nodeUnless [.value, .flowEntry, .flowMappingEnd] fuel false false
      let value ←
        if ← passed .value then nodeUnless [.flowEntry, .flowMappingEnd] fuel false false
        else pure Node.missing
      return (key, value) :: (← flowEntries fuel false)
    else
      let key ← node fuel false false
      return (key, Node.missing) :: (← flowEntries fuel false)

end

/-! ## The document -/

/-- The directives before a document and the mark of its start. -/
def directives (versioned : Bool) (fuel : Nat) : Read Unit :=
  match fuel with
  | 0 => fail "expected the start of a document"
  | fuel + 1 => do
    match ← next? with
    | some (.version major minor) =>
      advance
      if versioned then fail "a second version"
      if major ≠ 1 || (minor ≠ 1 && minor ≠ 2) then fail "unknown version"
      directives true fuel
    | some (.tagHandle handle expansion) =>
      advance
      let r ← get
      if (r.handles.lookup handle).isSome then fail "a tag handle is defined twice"
      set { r with handles := (handle, expansion) :: r.handles }
      directives versioned fuel
    | _ => expect .documentStart "expected the start of a document"

/-- The handles that need no directive; a directive may replace them. -/
def withUsualHandles (handles : List (String × Tag)) : List (String × Tag) :=
  handles ++ [("!", .mark), ("!!", .core "")]

/-- The marks at the end of the last document. -/
def documentEnds (fuel : Nat) : Read Unit :=
  match fuel with
  | 0 => pure ()
  | fuel + 1 => do if ← passed .documentEnd then documentEnds fuel

/-- The document and the end of the text. Nothing is read from an empty text. -/
def document (fuel : Nat) : Read (Option Node) := do
  let isDirective : Token → Bool
    | .version .. | .tagHandle .. => true
    | _ => false
  match ← next? with
  | none => return none
  | some t =>
    let marked := isDirective t || t == .documentStart
    if marked then directives false fuel
    modify fun r => { r with handles := withUsualHandles r.handles }
    let empty ← match ← next? with
      | none => pure true
      | some t => pure (isDirective t || t == .documentStart || t == .documentEnd)
    let n ← if marked && empty then pure Node.missing else node fuel true false
    documentEnds fuel
    if (← next?).isSome then fail "expected the end of the text"
    return some n

end Read

/-- The document of a text; none if the text holds nothing but comments. -/
def Node.read (text : String) : Except Fault (Option Node) := do
  let ts ← tokens text
  let (node, _) ← (Read.document (4 * ts.length + 10)).run ⟨ts, [], []⟩
  return node

mutual

/-- The nodes with anchors inside a node, from left to right and from the outside
inwards. -/
def Node.anchored : Node → List (Nat × Node)
  | .alias _ => []
  | .scalar a v => a.toList.map (·, .scalar a v)
  | .sequence a t items => a.toList.map (·, .sequence a t items) ++ anchoredItems items
  | .mapping a t entries => a.toList.map (·, .mapping a t entries) ++ anchoredEntries entries

def Node.anchoredItems : List Node → List (Nat × Node)
  | [] => []
  | n :: ns => n.anchored ++ anchoredItems ns

def Node.anchoredEntries : List (Node × Node) → List (Nat × Node)
  | [] => []
  | (k, v) :: rest => k.anchored ++ v.anchored ++ anchoredEntries rest

end

mutual

/-- The number of marks that a node is made of: a scalar or an alias is one, a
sequence or a mapping has a start and an end. -/
def Node.weight : Node → Nat
  | .alias _ | .scalar .. => 1
  | .sequence _ _ items => 2 + weightItems items
  | .mapping _ _ entries => 2 + weightEntries entries

def Node.weightItems : List Node → Nat
  | [] => 0
  | n :: ns => n.weight + weightItems ns

def Node.weightEntries : List (Node × Node) → Nat
  | [] => 0
  | (k, v) :: rest => k.weight + v.weight + weightEntries rest

end

end RecordDefinitions.Yaml
