import RecordDefinitions.Proofs.Schema.Alike

/-!
# The files that an import asks for

The references in a file lead to other files, and those in them further on. An import of a
file asks for such files only, and nothing in it depends on the directory that it is told
for documents that come from no file.
-/

namespace RecordDefinitions

/-- The paths where references are looked up that lead on from a document: its own are
seen from a directory, and those in a file that is found from the directory of the file. -/
inductive Sought (loader : Loader) (directory : Path) (d : Document) : Path → Prop
  | here {location : String} :
    location ∈ d.locations → Sought loader directory d (directory.located location)
  | there {p own : Path} {text : String} {found : Document} {location : String} :
    Sought loader directory d p → loader p = some text →
    Source.readDocument (Format.ofPath p) text = .ok found → p.parent? = some own →
    location ∈ found.locations → Sought loader directory d (own.located location)

/-- What is sought depends on the directory in its shortest way only. -/
theorem Sought.of_normalize {loader : Loader} {directory directory' : Path} {d : Document}
    {p : Path} (hp : Sought loader directory d p)
    (h : directory.normalize = directory'.normalize) : Sought loader directory' d p := by
  induction hp with
  | here hlocation =>
    rw [Path.located_of_normalize h]
    exact .here hlocation
  | there _ htext hread hown hlocation ih => exact .there ih htext hread hown hlocation

/-- There is no file at a path without steps. -/
structure Files.Proper (files : Files) : Prop where
  here : ∀ text, files "" ≠ .ok text
  root : ∀ text, files "/" ≠ .ok text

theorem FileTree.proper_read (t : FileTree) : Files.Proper t.read where
  here text h := by cases h
  root text h := by cases h

theorem Files.Proper.exists_parent {files : Files} (h : files.Proper) {p : Path} {text : String}
    (htext : Loader.ofFiles files p = some text) : ∃ own, p.parent? = some own := by
  unfold Path.parent?
  obtain ⟨absolute, steps⟩ := p
  cases steps with
  | cons step steps => exact ⟨_, rfl⟩
  | nil =>
    have hno : ∀ text, files (Path.text ⟨absolute, []⟩) ≠ .ok text := by
      cases absolute with
      | true => exact h.root
      | false => exact h.here
    unfold Loader.ofFiles at htext
    cases hread : files (Path.text ⟨absolute, []⟩) with
    | ok text => exact absurd hread (hno text)
    | error fault =>
      rw [hread] at htext
      cases htext

theorem spreads_sought {files : Files} (h : files.Proper) (directory : Path) (d : Document) :
    (Loader.ofFiles files).Spreads (Sought (.ofFiles files) directory d) := by
  intro p text found hp htext hread
  obtain ⟨own, hown⟩ := h.exists_parent htext
  exact ⟨own, hown, fun location hl => .there hp htext hread hown hl⟩

/-! ## Samples -/

namespace Inference

variable {o o' : ImportOptions}

theorem reserve_congr (h : o.qualified = o'.qualified) (base : String) :
    reserve o base = reserve o' base := by
  unfold reserve
  rw [h]

mutual

theorem nameFields_congr (h : o.qualified = o'.qualified) (owner : String) :
    (fields : List (FieldLabel × List Evidence)) →
      nameFields o owner fields = nameFields o' owner fields
  | [] => by rw [nameFields, nameFields]
  | (label, evidence) :: rest => by
    rw [nameFields, nameFields, nameKinds_congr h owner _ _ evidence, nameFields_congr h owner rest]

theorem nameKinds_congr (h : o.qualified = o'.qualified) (owner field hint : String) :
    (kinds : List Evidence) →
      nameKinds o owner field hint kinds = nameKinds o' owner field hint kinds
  | [] => by rw [nameKinds, nameKinds]
  | kind :: rest => by
    rw [nameKinds, nameKinds, nameKind_congr h owner field hint kind,
      nameKinds_congr h owner field hint rest]

theorem nameKind_congr (h : o.qualified = o'.qualified) (owner field hint : String) :
    (kind : Evidence) → nameKind o owner field hint kind = nameKind o' owner field hint kind
  | .scalar kind => by rw [nameKind, nameKind]
  | .object fields => by
    rw [nameKind, nameKind, reserve_congr h]
    simp only [nameFields_congr h _ fields]
  | .list items => by
    rw [nameKind, nameKind, nameKinds_congr h owner field _ items]

end

theorem infer_congr (h : o.qualified = o'.qualified) (hroot : o.rootName = o'.rootName)
    (d : Document) : infer o d = infer o' d := by
  unfold infer nameRoot
  rw [reserve_congr h, hroot]
  simp only [nameFields_congr h]

end Inference

/-! ## Imports of files -/

namespace Import

open Schema

variable {o : ImportOptions} {files : Files} {path : String} {directory : Path}

/-- The entries of a document from a file are converted without any other directory. -/
theorem alike_entries {context : ReferenceContext} (h : files.Proper)
    (hin : context.In directory) (base : Option Path) (start start' : Path) (i : Nat × Nat) :
    Alike (·.Keeps (.ofFiles files) (Sought (.ofFiles files) directory context.document))
      (convertAll (setting { o with base } (.ofFiles files) start) i (entriesOf o context))
      (convertAll (setting o (.ofFiles files) start') i (entriesOf o context)) fun _ => True := by
  have hagrees : (setting { o with base } (.ofFiles files) start).Agrees
      (setting o (.ofFiles files) start') := ⟨rfl, rfl, rfl⟩
  refine alike_convertAll hagrees (spreads_sought h directory context.document) i fun e he => ?_
  obtain ⟨hcontext, hinside⟩ := lies_of_entries he
  rw [hcontext]
  exact ⟨⟨directory, hin, fun location hl => .here hl⟩, hinside⟩

theorem run_base {context : ReferenceContext} (h : files.Proper) (hin : context.In directory)
    (base : Option Path) (start start' : Path) :
    run { o with base } (.ofFiles files) start context =
      run o (.ofFiles files) start' context := by
  obtain ⟨hsame, -, -⟩ := alike_entries (o := o) h hin base start start'
    (depthBound, depthBound) .empty (LookupMemory.keeps_empty _ _)
  have hentries : entriesOf { o with base } context = entriesOf o context := by
    unfold entriesOf
    cases o.kind.getD (.ofDocument context.document) <;> rfl
  unfold run
  rw [runWithin_eq, runWithin_eq, hentries]
  cases o.kind.getD (.ofDocument context.document) with
  | openApi => exact converted_congr hsame
  | jsonSchema => exact converted_congr hsame
  | data =>
    have hinfer : Inference.infer { o with base } context.document =
        Inference.infer o context.document := by
      apply Inference.infer_congr
      · rfl
      · rfl
    exact congrArg (Outcome.mk · []) hinfer

theorem sought_of_run {context : ReferenceContext} (h : files.Proper)
    (hin : context.In directory) {start p : Path}
    (hp : p ∈ (run o (.ofFiles files) start context).asked) :
    Sought (.ofFiles files) directory context.document p := by
  obtain ⟨-, hkeeps, -⟩ := alike_entries (o := o) h hin o.base start start
    (depthBound, depthBound) .empty (LookupMemory.keeps_empty _ _)
  unfold run at hp
  rw [runWithin_eq] at hp
  cases hkind : o.kind.getD (.ofDocument context.document) with
  | openApi =>
    rw [hkind] at hp
    exact hkeeps.asked p (List.mem_reverse.mp hp)
  | jsonSchema =>
    rw [hkind] at hp
    exact hkeeps.asked p (List.mem_reverse.mp hp)
  | data =>
    rw [hkind] at hp
    cases hp

/-- Every file that an import of a file asks for is sought from a directory. -/
def StartsAt (o : ImportOptions) (files : Files) (path : String) (directory : Path) : Prop :=
  ∀ d, Source.readDocumentFile files path = .ok d →
    ∀ p ∈ (file o files path).asked, Sought (.ofFiles files) directory d p

theorem in_ofText (h : (Path.ofText path).parent? = some directory) (d : Document) :
    ReferenceContext.In ⟨d, some (.ofText path)⟩ directory := h

theorem file_base (h : (Path.ofText path).parent? = some directory) (hfiles : files.Proper)
    (base : Option Path) : file { o with base } files path = file o files path := by
  unfold file
  cases Source.readDocumentFile files path with
  | error failure => rfl
  | ok d => exact run_base hfiles (in_ofText h d) base _ _

theorem startsAt_directory (h : (Path.ofText path).parent? = some directory)
    (hfiles : files.Proper) : StartsAt o files path directory := by
  intro d hd p hp
  unfold file at hp
  rw [hd] at hp
  exact sought_of_run hfiles (in_ofText h d) hp

end Import

end RecordDefinitions
