import RecordDefinitions.Document.Basic
import RecordDefinitions.TypeExpr.Basic

/-!
# Summaries of samples

What a list of samples shows of their type. The values that stand at one place in
all the samples are looked at together: their kinds in the order in which they are
first seen, the objects among them as one list of samples again, and the items of
all lists among them as one list of values.
-/

namespace RecordDefinitions.Inference

/-- What the samples show of a field beside the kinds of its values. -/
structure FieldLabel where
  name : String
  /-- Some sample holds null. -/
  nullable : Bool
  /-- Every sample holds a value other than null. -/
  required : Bool
  deriving DecidableEq

/-- A kind of values with what was found inside them. -/
inductive Evidence where
  | scalar (kind : ScalarKind)
  | object (fields : List (FieldLabel × List Evidence))
  /-- No evidence for items other than null means that there are none. -/
  | list (items : List Evidence)

/-- A kind of values. -/
inductive ValueKind where
  | scalar (kind : ScalarKind)
  | object
  | list
  deriving DecidableEq

/-- The kind of a value; null has none. -/
def kindOf? : Document → Option ValueKind
  | .null => none
  | .bool _ => some (.scalar .bool)
  | .number (.integer _) => some (.scalar .int)
  | .number (.real _) => some (.scalar .float)
  | .string _ => some (.scalar .string)
  | .array _ => some .list
  | .object _ => some .object

/-- Append something unless it is there already. -/
def appendNew {α : Type} [DecidableEq α] (seen : List α) (a : α) : List α :=
  if a ∈ seen then seen else seen ++ [a]

/-- A list without repetitions, each where it first came. -/
def distinct {α : Type} [DecidableEq α] (as : List α) : List α := as.foldl appendNew []

/-- The members of an object. -/
abbrev Sample := List (String × Document)

/-- The value under a key of a sample. -/
def valueOf? (key : String) (sample : Sample) : Option Document :=
  (findNamed? key sample).map Prod.snd

/-- The values other than null at a key of some samples. -/
def valuesAt (samples : List Sample) (key : String) : List Document :=
  (samples.filterMap (valueOf? key)).filter fun d => !d.isNull

/-- The fields that some samples show. `evidence` summarizes the values of one. -/
def fieldsOf (evidence : List Document → List Evidence) (samples : List Sample) :
    List (FieldLabel × List Evidence) :=
  (distinct (samples.flatMap namesOf)).map fun key =>
    let values := valuesAt samples key
    ({ name := key
       nullable := (samples.filterMap (valueOf? key)).any Document.isNull
       required := values.length = samples.length },
     evidence values)

/-- The evidence that some values give, to a depth. -/
def evidenceOf : Nat → List Document → List Evidence
  | 0, _ => []
  | depth + 1, values =>
    (distinct (values.filterMap kindOf?)).map fun kind =>
      match kind with
      | .scalar k => .scalar k
      | .object => .object (fieldsOf (evidenceOf depth) (values.filterMap Document.asObject?))
      | .list =>
        .list (evidenceOf depth
          (((values.filterMap Document.asArray?).flatten).filter fun d => !d.isNull))

mutual

/-- How deeply a document is nested; what holds no other document counts one. -/
def depthOf : Document → Nat
  | .array items => depthOfItems items + 1
  | .object members => depthOfMembers members + 1
  | .null | .bool _ | .number _ | .string _ => 1

def depthOfItems : List Document → Nat
  | [] => 0
  | d :: ds => max (depthOf d) (depthOfItems ds)

def depthOfMembers : List (String × Document) → Nat
  | [] => 0
  | (_, d) :: rest => max (depthOf d) (depthOfMembers rest)

end

/-- The fields that some samples show. -/
def summary (samples : List Sample) : List (FieldLabel × List Evidence) :=
  fieldsOf (evidenceOf (depthOfItems (samples.map .object))) samples

end RecordDefinitions.Inference
