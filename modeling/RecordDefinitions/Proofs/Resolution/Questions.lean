import RecordDefinitions.Proofs.Resolution.Memory

/-!
# Questions to one resolver

A resolver is asked one question after the other and keeps its memory, also after a
failure. The replies do not show this: each is the one that a resolver without any
memory gives, and shapes are those of the plain expansion, whose bound on the length of
a path has no part in them.
-/

namespace RecordDefinitions

/-! ## The bound of the plain expansion -/

/-- Computations with the same result, as a relation that sequences of steps respect. -/
def equalitySimulation : Simulation (Except Failure) (Except Failure) where
  Rel x y := x = y
  pure _ := rfl
  bind := by
    intro α β x y f g hxy hfg
    rw [hxy, funext hfg]
  throw _ := rfl

/-- Steps beyond those that the length of the path asks for change nothing. -/
theorem Registry.Met.expand_add {r : Registry} {steps : Nat} {path : List String} {name : String}
    (h : r.Met steps path name) (extra : Nat) :
    r.expand (steps + extra) path name = r.expand steps path name := by
  induction steps generalizing path name with
  | zero => exact absurd h Met.not_zero
  | succ steps ih =>
    rw [Nat.succ_add]
    by_cases hpath : name ∈ path
    · rw [expand_of_mem hpath, expand_of_mem hpath]
    · rw [expand_succ hpath, expand_succ hpath]
      cases hfields : r.flatFields name with
      | error e => rfl
      | ok fields =>
        have hname : r.contains name := (rooted_of_flatFields hfields).contains
        refine equalitySimulation.recordShape fun flat hflat k hk _ => ih ?_
        rw [Field.references_containerType] at hk
        exact h.next hpath hname (mentions_of_mem hfields hflat hk)

namespace Resolver

/-- What a resolver can be asked. -/
inductive Question where
  | chain (name : String)
  | fields (name : String)
  | shape (name : String)
  | definition (name : String)
  | all

/-- What a resolver can reply. -/
inductive Reply where
  | chain (names : List String)
  | fields (fields : FlatFields)
  | shape (shape : Shape)
  | definition (definition : ResolvedDefinition)
  | all (definitions : ResolvedSet)

namespace Question

/-- Ask a resolver. -/
def ask (r : Registry) : Question → Resolver Reply
  | chain name => .chain <$> Resolver.chain r name
  | fields name => .fields <$> Resolver.flatFields r name
  | shape name => .shape <$> Resolver.shape r name
  | definition name => .definition <$> Resolver.definition r name
  | all => .all <$> Resolver.all r

/-- The reply that takes no memory. -/
def plainReply (r : Registry) : Question → Except Failure Reply
  | chain name => .chain <$> r.chain name
  | fields name => .fields <$> r.flatFields name
  | shape name => .shape <$> r.shape name
  | definition name => .definition <$> r.resolved name
  | all => (fun ds => .all (Catalogue.ofList ds)) <$> r.toList.mapM fun d => r.resolved d.name

/-- The reply of a resolver that has not been asked before. -/
def firstReply (r : Registry) (q : Question) : Except Failure Reply := (outcome (q.ask r) .empty).1

end Question

/-- The replies of one resolver to a row of questions. The memory that a question leaves,
with a reply or with a failure, is there for the next one. -/
def replies (r : Registry) : List Question → ResolverMemory → List (Except Failure Reply)
  | [], _ => []
  | q :: qs, m =>
    let (reply, rest) := outcome (q.ask r) m
    reply :: replies r qs rest

variable {r : Registry}

theorem Answers.map {α β : Type} {x : Resolver α} {y : Except Failure α} (f : α → β)
    (h : Answers r x y) : Answers r (f <$> x) (f <$> y) := by
  rw [map_eq_pure_bind, map_eq_pure_bind]
  exact h.bind fun a _ => .pure (f a)

theorem answers_ask (q : Question) : Answers r (q.ask r) (q.plainReply r) := by
  cases q with
  | chain name => exact (answers_chain name).map _
  | fields name => exact (answers_flatFields name).map _
  | shape name => exact (answers_shape name).map _
  | definition name => exact (answers_definition name).map _
  | all =>
    have hall := (answers_all r).map Reply.all
    rwa [← comp_map] at hall

theorem firstReply_eq (q : Question) : q.firstReply r = q.plainReply r :=
  (answers_ask q .empty sound_empty).1

/-- From a sound memory every reply is the plain one, whatever was asked before it. -/
theorem replies_eq_of_sound {m : ResolverMemory} (hm : m.Sound r) (qs : List Question) :
    replies r qs m = qs.map (·.plainReply r) := by
  induction qs generalizing m with
  | nil => rfl
  | cons q qs ih =>
    obtain ⟨hreply, hrest⟩ := answers_ask q m hm
    rw [List.map_cons, ← hreply, ← ih hrest]
    rfl

/-- A row of questions to one resolver is replied to as by a new resolver for each of
them, which is the reply without memory. In particular shapes are those of the plain
expansion along paths, under its bound and under every greater one. -/
theorem replies_without_memory (r : Registry) (qs : List Question) :
    replies r qs .empty = qs.map (·.firstReply r) ∧
      (∀ q : Question, q.firstReply r = q.plainReply r) ∧
      ∀ name extra, r.expand (r.size + 1 + extra) [] name = r.shape name := by
  refine ⟨?_, firstReply_eq, fun name extra => (Registry.met_start name).expand_add extra⟩
  rw [replies_eq_of_sound sound_empty]
  exact List.map_congr_left fun q _ => (firstReply_eq q).symm

end Resolver

end RecordDefinitions
