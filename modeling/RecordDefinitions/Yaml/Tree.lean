import RecordDefinitions.Yaml.Node

/-!
# YAML trees

The document of a text with every alias replaced by what it stands for. Two
limits keep the tree small: how deeply it is nested, and how many aliases are
followed for a text of a given size.
-/

namespace RecordDefinitions.Yaml

inductive Tree where
  | scalar (value : Scalar)
  | sequence (tag : Option Tag) (items : List Tree)
  | mapping (tag : Option Tag) (entries : List (Tree × Tree))

namespace Tree

/-- How many sequences and mappings may stand inside one another. -/
def depthLimit : Nat := 128

/-- How many aliases may be followed for every mark of the text. -/
def aliasLimit : Nat := 100

/-- What aliases stand for, and how many more may be followed. -/
abbrev Expansion := ReaderT (List (Nat × Node)) (StateT Nat (Except Fault))

/-- The node itself, or the one that it is an alias of. An anchor that was given
more than once stands for its last node. -/
def target (n : Node) : Expansion Node :=
  match n with
  | .alias anchor => do
    let left ← get
    if left = 0 then throw ⟨"too many aliases", none⟩
    set (left - 1)
    match (← read).reverse.lookup anchor with
    | some found => return found
    | none => throw ⟨"unknown anchor", none⟩
  | n => return n

/-- The tree of a node, at most `depth` deep. -/
def expand : Nat → Node → Expansion Tree
  | depth, n => do
    match ← target n, depth with
    | .scalar _ value, _ => return .scalar value
    | .sequence _ tag items, depth + 1 => return .sequence tag (← items.mapM (expand depth))
    | .mapping _ tag entries, depth + 1 =>
      return .mapping tag
        (← entries.mapM fun (key, value) => do return (← expand depth key, ← expand depth value))
    | _, _ => throw ⟨"the text is nested too deeply", none⟩

/-- The tree of a text; none if the text holds nothing but comments. -/
def read (text : String) : Except Fault (Option Tree) := do
  match ← Node.read text with
  | none => return none
  | some n =>
    let (tree, _) ← ((expand depthLimit n).run n.anchored).run (aliasLimit * n.weight)
    return some tree

/-- Whether a tag says what kind of thing the document itself takes a sequence or
a mapping for; no such kind is known here. -/
def isOwnTag (tag : Option Tag) : Bool := tag.any Tag.isOwn

end Tree

end RecordDefinitions.Yaml
