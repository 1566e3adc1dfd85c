import Mathlib.Data.List.Find
import RecordDefinitions.Proofs.Import.Whereabouts

/-!
# Where paths lead

A path is an instruction: a name descends, one dot stays and two dots ascend. They take back the
last name if there is one; otherwise they stay at the root, or lead one level higher above the start
of a relative path. A normal form is written from the names that are left and, of the steps up that
found no name to take back, keeps one if their number is odd and none if it is even. So it leads
elsewhere when a relative path goes up two levels or more from its start, and paths to one location
may have two normal forms when they step up at the root.
-/

namespace RecordDefinitions

/-- Where a path leads: so many levels above the start, or from the root, and down along names. -/
@[ext] structure Location where
  absolute : Bool
  above : Nat
  names : List String
  deriving DecidableEq

/-- The location that a step leads to. -/
def Location.walk (l : Location) : PathStep → Location
  | .stay => l
  | .down name => { l with names := l.names ++ [name] }
  | .up =>
    if l.names ≠ [] then { l with names := l.names.dropLast }
    else if l.absolute then l
    else { l with above := l.above + 1 }

namespace Path

/-- The location that a path denotes. -/
def location (p : Path) : Location := p.steps.foldl Location.walk ⟨p.absolute, 0, []⟩

/-- How many steps up of a path find no name to take back. -/
def surplus (p : Path) : Nat := (location ⟨false, p.steps⟩).above

/-- A path goes up one level at most from its start, and not at all from the root. -/
def Level (p : Path) : Prop := if p.absolute then p.surplus = 0 else p.surplus ≤ 1

instance (p : Path) : Decidable p.Level := by
  unfold Level
  infer_instance

end Path

/-- The location that a path leads to from another one. -/
def Location.follow (l : Location) (p : Path) : Location :=
  if p.absolute then p.location else p.steps.foldl walk l

/-! ## Steps -/

namespace Location

theorem absolute_walk (l : Location) (step : PathStep) : (l.walk step).absolute = l.absolute := by
  cases step with
  | stay => rfl
  | down name => rfl
  | up =>
    simp only [walk]
    split
    · rfl
    · split <;> rfl

theorem absolute_foldl_walk (l : Location) (steps : List PathStep) :
    (steps.foldl walk l).absolute = l.absolute := by
  induction steps generalizing l with
  | nil => rfl
  | cons step steps ih => rw [List.foldl_cons, ih, absolute_walk]

/-- A step from the root is the same step from a start, but for the levels above that. -/
theorem walk_root (above : Nat) (names : List String) (step : PathStep) :
    walk ⟨true, 0, names⟩ step = ⟨true, 0, (walk ⟨false, above, names⟩ step).names⟩ := by
  cases step with
  | stay => rfl
  | down name => rfl
  | up => by_cases h : names = [] <;> simp [walk, h]

theorem foldl_walk_root (l : Location) (steps : List PathStep) (h : l.absolute = false) :
    steps.foldl walk ⟨true, 0, l.names⟩ = ⟨true, 0, (steps.foldl walk l).names⟩ := by
  induction steps generalizing l with
  | nil => rfl
  | cons step steps ih =>
    obtain ⟨absolute, above, names⟩ := l
    obtain rfl : absolute = false := h
    rw [List.foldl_cons, List.foldl_cons, walk_root above, ih _ (absolute_walk _ step)]

/-! ## The steps of a normal form -/

/-- The steps of a normal form that leads to a location, or an even number of levels below it. -/
def shortest (l : Location) : List PathStep :=
  List.replicate (l.above % 2) .up ++ l.names.map .down

theorem shortest_walk {l : Location} (h : l.absolute = false) (step : PathStep) :
    (l.walk step).shortest = Path.walk l.shortest step := by
  obtain ⟨absolute, above, names⟩ := l
  obtain rfl : absolute = false := h
  cases step with
  | stay => rfl
  | down name => simp [walk, shortest, Path.walk]
  | up =>
    rcases List.eq_nil_or_concat names with rfl | ⟨front, last, rfl⟩
    -- Without a name to take back, a step up takes back the one step up there is.
    · rcases Nat.mod_two_eq_zero_or_one above with heven | hodd
      · have hnext : (above + 1) % 2 = 1 := by omega
        simp [walk, shortest, Path.walk, heven, hnext]
      · have hnext : (above + 1) % 2 = 0 := by omega
        simp [walk, shortest, Path.walk, hodd, hnext]
    · simp [walk, shortest, Path.walk, ← List.append_assoc]

theorem shortest_foldl_walk {l : Location} (h : l.absolute = false) (steps : List PathStep) :
    (steps.foldl walk l).shortest = steps.foldl Path.walk l.shortest := by
  induction steps generalizing l with
  | nil => rfl
  | cons step steps ih =>
    rw [List.foldl_cons, List.foldl_cons, ih ((absolute_walk l step).trans h), shortest_walk h]

end Location

/-! ## Normal forms -/

namespace Path

variable (p q : Path)

theorem location_eq : p.location =
    ⟨p.absolute, if p.absolute then 0 else p.surplus, (location ⟨false, p.steps⟩).names⟩ := by
  obtain ⟨absolute, steps⟩ := p
  cases absolute with
  | true => exact Location.foldl_walk_root ⟨false, 0, []⟩ steps rfl
  | false =>
    have habsolute : (location ⟨false, steps⟩).absolute = false :=
      Location.absolute_foldl_walk _ steps
    exact Location.ext habsolute rfl rfl

theorem location_eq_iff : p.location = q.location ↔
    p.absolute = q.absolute ∧ (p.absolute ∨ p.surplus = q.surplus) ∧
      p.location.names = q.location.names := by
  rw [location_eq p, location_eq q, Location.mk.injEq]
  refine and_congr_right fun habsolute => and_congr_left fun _ => ?_
  rw [← habsolute]
  cases p.absolute <;> simp

/-- What is left of a path: the names on the way, and none or one of the steps up before them. -/
theorem normalize_eq : p.normalize =
    ⟨p.absolute, List.replicate (p.surplus % 2) .up ++ p.location.names.map .down⟩ := by
  have hsteps := Location.shortest_foldl_walk (l := ⟨false, 0, []⟩) rfl p.steps
  rw [normalize, location_eq]
  exact congrArg (Path.mk p.absolute) hsteps.symm

theorem location_up_down (absolute : Bool) (above : Nat) (names : List String) :
    location ⟨absolute, List.replicate above .up ++ names.map .down⟩ =
      ⟨absolute, if absolute then 0 else above, names⟩ := by
  have hup (above start : Nat) : (List.replicate above PathStep.up).foldl Location.walk
      ⟨absolute, start, []⟩ = ⟨absolute, if absolute then start else start + above, []⟩ := by
    induction above generalizing start with
    | zero => cases absolute <;> rfl
    | succ above ih => cases absolute <;> simp [List.replicate_succ, Location.walk, ih]; omega
  have hdown (names front : List String) (above : Nat) :
      (names.map PathStep.down).foldl Location.walk ⟨absolute, above, front⟩ =
        ⟨absolute, above, front ++ names⟩ := by
    induction names generalizing front with
    | nil => simp
    | cons name names ih => simp [Location.walk, ih]
  rw [location, List.foldl_append, hup, hdown, Nat.zero_add, List.nil_append]

theorem location_normalize : p.normalize.location =
    ⟨p.absolute, if p.absolute then 0 else p.surplus % 2, p.location.names⟩ := by
  rw [normalize_eq, location_up_down]

theorem surplus_normalize : p.normalize.surplus = p.surplus % 2 := by
  rw [normalize_eq, surplus, location_up_down]
  rfl

/-- A normal form leads to the same location unless the path goes up two levels from its start. -/
theorem location_normalize_iff :
    p.normalize.location = p.location ↔ p.absolute ∨ p.surplus ≤ 1 := by
  rw [location_normalize, location_eq p]
  cases p.absolute with
  | true => simp
  | false =>
    simp only [Bool.false_eq_true, if_false, Location.mk.injEq, true_and, and_true, false_or]
    omega

theorem normalize_eq_iff : p.normalize = q.normalize ↔
    p.absolute = q.absolute ∧ p.surplus % 2 = q.surplus % 2 ∧
      p.location.names = q.location.names := by
  constructor
  · intro h
    have hlocation := congrArg location h
    have hsurplus := congrArg surplus h
    rw [location_normalize, location_normalize, Location.mk.injEq] at hlocation
    rw [surplus_normalize, surplus_normalize] at hsurplus
    exact ⟨hlocation.1, hsurplus, hlocation.2.2⟩
  · rintro ⟨habsolute, hsurplus, hnames⟩
    rw [normalize_eq, normalize_eq q, habsolute, hsurplus, hnames]

variable {p q}

/-- Among level paths a normal form tells the location, and the location the normal form. -/
theorem Level.normalize_eq_iff (hp : p.Level) (hq : q.Level) :
    p.normalize = q.normalize ↔ p.location = q.location := by
  rw [Path.normalize_eq_iff, location_eq_iff]
  refine and_congr_right fun habsolute => and_congr_left fun _ => ?_
  unfold Level at hp hq
  rw [← habsolute] at hq
  cases hroot : p.absolute with
  | true =>
    rw [hroot, if_pos rfl] at hp hq
    simp [hp, hq]
  | false =>
    rw [hroot, if_neg Bool.false_ne_true] at hp hq
    simp only [Bool.false_eq_true, false_or]
    omega

theorem location_join (directory target : Path) :
    (directory.join target).location = directory.location.follow target := by
  unfold join Location.follow
  split
  · rfl
  · unfold location
    rw [foldl_settled (f := Location.walk) (fun _ => rfl), List.foldl_append]

end Path

/-! ## Files and references -/

theorem Loader.ofList_eq_find? (documents : List (String × String)) (p : Path) :
    ofList documents p =
      (documents.reverse.find? fun d => (Path.ofText d.1).normalize = p.normalize).map Prod.snd := by
  unfold ofList
  induction documents.reverse with
  | nil => rfl
  | cons d documents ih =>
    obtain ⟨path, text⟩ := d
    rw [List.map_cons, List.lookup_cons, List.find?_cons]
    by_cases h : (Path.ofText path).normalize = p.normalize
    · simp [h]
    · have hne : (p.normalize == (Path.ofText path).normalize) = false :=
        beq_eq_false_iff_ne.mpr fun hsame => h hsame.symm
      simp [h, hne, ih]

/-- The directory from which the references in a document are looked up. -/
def ReferenceResolver.directory (resolver : ReferenceResolver) (context : ReferenceContext) : Path :=
  (context.file.bind fun f => f.path.parent?).getD resolver.base

theorem ReferenceResolver.locate_eq_located (resolver : ReferenceResolver) (location : String)
    (context : ReferenceContext) :
    resolver.locate location context = (resolver.directory context).located location := by
  unfold locate Path.located Path.join directory
  by_cases habsolute : (Path.ofText location).absolute
  · simp only [if_pos habsolute]
  · simp only [if_neg habsolute]

namespace Path

/-- A normal form leads to the same location if and only if the path is absolute or goes up one
level at most. Two paths to one location have one normal form if and only if they are relative or
the numbers of their steps up at the root are both even or both odd; and paths with one normal form
lead to one location unless they are relative and go up to different levels. Hence documents that
are held by level paths are found by their locations, and references along level paths have one
path for each location. -/
theorem normalize_keeps_location (p q : Path) :
    (p.normalize.location = p.location ↔ p.absolute ∨ p.surplus ≤ 1) ∧
    (p.location = q.location →
      (p.normalize = q.normalize ↔ p.absolute = false ∨ p.surplus % 2 = q.surplus % 2)) ∧
    (p.normalize = q.normalize →
      (p.location = q.location ↔ p.absolute ∨ p.surplus = q.surplus)) ∧
    (∀ documents : List (String × String), p.Level → (∀ d ∈ documents, (ofText d.1).Level) →
      Loader.ofList documents p =
        (documents.reverse.find? fun d => (ofText d.1).location = p.location).map Prod.snd) ∧
    ∀ (resolver : ReferenceResolver) (context context' : ReferenceContext)
      (location location' : String),
      ((resolver.directory context).join (ofText location)).Level →
      ((resolver.directory context').join (ofText location')).Level →
      (resolver.locate location context = resolver.locate location' context' ↔
        (resolver.directory context).location.follow (ofText location) =
          (resolver.directory context').location.follow (ofText location')) := by
  refine ⟨location_normalize_iff p, ?_, ?_, ?_, ?_⟩
  · intro h
    obtain ⟨habsolute, hsurplus, hnames⟩ := (location_eq_iff p q).mp h
    rw [normalize_eq_iff]
    cases hroot : p.absolute with
    | true => simp [← habsolute, hroot, hnames]
    | false =>
      rw [hroot] at hsurplus
      simp [← habsolute, hroot, hnames, hsurplus.resolve_left Bool.false_ne_true]
  · intro h
    obtain ⟨habsolute, -, hnames⟩ := (normalize_eq_iff p q).mp h
    rw [location_eq_iff]
    simp [habsolute, hnames]
  · intro documents hp hdocuments
    rw [Loader.ofList_eq_find?]
    congr 1
    refine List.find?_congr fun d hd => decide_eq_decide.mpr ?_
    exact (hdocuments d (List.mem_reverse.mp hd)).normalize_eq_iff hp
  · intro resolver context context' location location' hway hway'
    rw [ReferenceResolver.locate_eq_located, ReferenceResolver.locate_eq_located, located, located,
      hway.normalize_eq_iff hway', location_join, location_join]

/-- A library beside the directory of a service, reached on two ways. -/
theorem normalize_keeps_location_library :
    (ofText "../lib/./b").location = (ofText "../lib/c/../b").location ∧
    (ofText "../lib/./b").normalize = (ofText "../lib/c/../b").normalize ∧
    Loader.ofList [("api/a", "first"), ("../lib/c/../b", "second")] (ofText "../lib/./b") =
      some "second" ∧
    ReferenceResolver.locate ⟨ofText "api", fun _ => none⟩ "../lib/b" ⟨.null, none⟩ =
      ReferenceResolver.locate ⟨ofText "api", fun _ => none⟩ "./b"
        ⟨.null, some (.ofText "lib/a.json")⟩ := by
  obtain ⟨-, hnormal, -, hfiles, hreferences⟩ :=
    normalize_keeps_location (ofText "../lib/./b") (ofText "../lib/c/../b")
  have hsame : (ofText "../lib/./b").location = (ofText "../lib/c/../b").location := by
    decide +kernel
  refine ⟨hsame, (hnormal hsame).mpr (by decide +kernel), ?_, ?_⟩
  · rw [hfiles _ (by decide +kernel) (by decide +kernel)]
    decide +kernel
  · rw [hreferences _ _ _ _ _ (by decide +kernel) (by decide +kernel)]
    decide +kernel

/-- A file two levels above the start is confused with one at the start, where a loader finds it,
and a step up at the root gives a location a second normal form. -/
theorem normalize_confuses_and_splits :
    ((ofText "../../money.json").normalize = (ofText "money.json").normalize ∧
      (ofText "../../money.json").normalize.location ≠ (ofText "../../money.json").location ∧
      Loader.ofList [("money.json", "{}")] (ofText "../../money.json") = some "{}") ∧
    (ofText "/../money.json").location = (ofText "/money.json").location ∧
    (ofText "/../money.json").normalize ≠ (ofText "/money.json").normalize := by
  decide +kernel

end Path

end RecordDefinitions
