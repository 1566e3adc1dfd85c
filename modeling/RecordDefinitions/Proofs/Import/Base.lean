import RecordDefinitions.Proofs.Declaration.Encoding
import RecordDefinitions.Proofs.Import.Sought
import RecordDefinitions.Proofs.Text.Ends

/-!
# The directory that references start from

An import is told a directory for references, but the import of a file never uses it: the
references in the file are seen from the directory of the file. Both come to the same only
where the two directories are the same.
-/

namespace RecordDefinitions

namespace Path

/-- The text of a path ends with its last name. -/
theorem suffix_text (absolute : Bool) (steps : List PathStep) (name : String) :
    name.toList <:+ (Path.text ⟨absolute, steps ++ [.down name]⟩).toList := by
  unfold text
  rw [String.toList_append, String.toList_intercalate, List.map_append, List.map_append]
  exact (Text.suffix_intercalate _ _ _).trans (List.suffix_append _ _)

end Path

/-! ## A document that asks for one file -/

theorem Source.readDocument_json {text : String} {d : Document} (h : Json.read text = .ok d)
    (hkeys : d.KeysOnce) : readDocument .json text = .ok d := by
  unfold readDocument
  simp only [h, Except.map, Except.mapError, Document.merged_of_keysOnce d hkeys]

theorem Source.readDocument_yaml {text : String} {t : Yaml.Tree} {d : Document}
    (htree : Yaml.Tree.read text = .ok (some t)) (h : t.document = .ok d) (hkeys : d.KeysOnce) :
    readDocument .yaml text = .ok d := by
  have hread : Yaml.read text = .ok d := by
    unfold Yaml.read
    rw [htree]
    refine bind_eq_ok_iff.mpr ⟨some t, rfl, ?_⟩
    refine bind_eq_ok_iff.mpr ⟨d, h, ?_⟩
    rw [Document.merged_of_keysOnce d hkeys]
    rfl
  unfold readDocument
  simp only [hread, Except.mapError]

namespace Import

open Schema

variable {o : ImportOptions} {files : Files} {path : String} {directory : Path}

/-- A document that consists of a reference to a file. -/
def soleReference (name : String) : Document :=
  .object [("allOf", .array [.object [("$ref", .string name)]])]

/-- The text of such a document. -/
def soleText (name : String) : String := "\x7b\"allOf\":[\x7b\"$ref\":\"" ++ name ++ "\"\x7d]\x7d"

theorem locations_soleReference (name : String) :
    (soleReference name).locations = (ReferenceResolver.location? name).toList := by
  have hparts : (soleReference name).parts =
      [soleReference name, .array [.object [("$ref", .string name)]],
        .object [("$ref", .string name)], .string name] := rfl
  have hreferences : (soleReference name).locations = [none, none, some name, none].filterMap
      fun reference => reference.bind ReferenceResolver.location? := by
    unfold Document.locations
    rw [hparts]
    rfl
  rw [hreferences]
  simp only [List.filterMap_cons, List.filterMap_nil, Option.bind_none, Option.bind_some]
  cases ReferenceResolver.location? name <;> rfl

/-- The computation fails after it has asked for some paths, the last one first. -/
def FailsAsking {α : Type} (x : Convert α) (t : Progress) (paths : List Path) : Prop :=
  ∃ e u, outcome x t = (.error e, u) ∧ u.lookup.asked = paths

theorem FailsAsking.bind {α β : Type} {x : Convert α} {t : Progress} {paths : List Path}
    (h : FailsAsking x t paths) (f : α → Convert β) : FailsAsking (x >>= f) t paths := by
  obtain ⟨e, u, hx, hasked⟩ := h
  exact ⟨e, u, by rw [outcome_bind, hx], hasked⟩

section

variable {s : Setting} {own : Path} {name : String} {context : ReferenceContext} {t : Progress}
  (hin : context.In own) (hlocation : ReferenceResolver.location? name = some name)
  (hnone : s.resolver.loader (own.located name) = none) (ht : t.lookup = .empty)

include hin hlocation hnone ht

theorem failsAsking_target : FailsAsking (target s name context) t [own.located name] := by
  have hload : outcome (s.resolver.load (own.located name)) .empty =
      (.ok none, ⟨[], [own.located name]⟩) := by
    unfold ReferenceResolver.load
    rw [outcome_bind, outcome_get]
    simp only [LookupMemory.empty, List.lookup_nil]
    rw [outcome_bind, outcome_modify, hnone]
    rfl
  have hresolve : outcome (s.resolver.resolve name context) .empty =
      (.ok none, ⟨[], [own.located name]⟩) := by
    rw [ReferenceResolver.resolve_eq hin, hlocation]
    simp only
    rw [outcome_bind_of_ok hload]
    rfl
  refine ⟨.malformed (.unresolvableReference name),
    { t with lookup := ⟨[], [own.located name]⟩ }, ?_, rfl⟩
  unfold target
  rw [outcome_bind, outcome_ofLookup, ht, hresolve]
  rfl

theorem failsAsking_compose (depth : Nat) :
    FailsAsking (compose s (depth + 2) [] (soleReference name) context .empty) t
      [own.located name] := by
  have hparts : ((soleReference name).array? "allOf").getD [] =
      [.object [("$ref", .string name)]] := rfl
  have hwhole : (soleReference name).string? "$ref" = none := rfl
  have hpart : (Document.object [("$ref", .string name)]).string? "$ref" = some name := rfl
  rw [compose, hwhole]
  simp only [hparts, List.foldlM_cons]
  rw [compose, hpart]
  exact (((failsAsking_target hin hlocation hnone ht).bind _).bind _).bind _

theorem failsAsking_convertEntry (ht' : t.named = []) (depth : Nat) (base : String)
    (way : List PlaceStep) :
    FailsAsking (convertEntry s (depth + 2, depth + 2)
      ⟨⟨soleReference name, context, ""⟩, base, way⟩) t [own.located name] := by
  unfold FailsAsking convertEntry
  rw [outcome_defineOnce, ht']
  refine FailsAsking.bind (FailsAsking.bind (FailsAsking.bind ?_ _) _) _
  exact failsAsking_compose (s := s.within (depth + 2)) (t := t.naming _ _ _) hin hlocation hnone
    ht depth

end

theorem asked_converted (convert : Convert Unit) :
    (converted convert).asked = (outcome convert .empty).2.lookup.asked.reverse := rfl

theorem asked_soleReference {loader : Loader} {start own : Path} {name : String}
    {file : Option DocumentFile} (hin : ReferenceContext.In ⟨soleReference name, file⟩ own)
    (hlocation : ReferenceResolver.location? name = some name)
    (hnone : loader (own.located name) = none) (base : Option Path) (bound : Nat) :
    (runWithin (bound + 2) ⟨none, none, base, "Root"⟩ loader start
      ⟨soleReference name, file⟩).asked = [own.located name] := by
  have hentries : entriesOf ⟨none, none, base, "Root"⟩ ⟨soleReference name, file⟩ =
      [⟨⟨soleReference name, ⟨soleReference name, file⟩, ""⟩, "Root", []⟩] := rfl
  have hkind : DocumentKind.ofDocument (soleReference name) = .jsonSchema := rfl
  rw [runWithin_eq, hentries]
  simp only [Option.getD_none, hkind]
  generalize hs : setting ⟨none, none, base, "Root"⟩ loader start = s
  have hnone' : s.resolver.loader (own.located name) = none := by rwa [← hs]
  have hfails : FailsAsking (convertAll s (bound + 2, bound + 2)
      [⟨⟨soleReference name, ⟨soleReference name, file⟩, ""⟩, "Root", []⟩]) .empty
      [own.located name] := by
    unfold convertAll
    rw [List.mapM_cons]
    exact ((failsAsking_convertEntry hin hlocation hnone' rfl rfl bound "Root" []).bind _).bind _
  obtain ⟨e, u, hu, hasked⟩ := hfails
  rw [asked_converted, hu, hasked]
  rfl

/-- The place where one file holds a reference to another one that is not there. -/
def soleFile (path name : String) : Files := fun p =>
  if p = path then .ok (soleText name) else .error .missing

theorem proper_soleFile (h : (Path.ofText path).parent? = some directory) (name : String) :
    (soleFile path name).Proper := by
  have hno (p text : String) (hp : (Path.ofText p).parent? = none) :
      soleFile path name p ≠ .ok text := by
    unfold soleFile
    rw [if_neg]
    · simp
    · rintro rfl
      rw [h] at hp
      cases hp
  exact ⟨fun text => hno "" text rfl, fun text => hno "/" text rfl⟩

/-- A name that a path does not end with. -/
theorem exists_not_suffix (path : String) :
    ∃ name ∈ ["t", "u"], ¬ name.toList <:+ path.toList := by
  by_contra hboth
  push Not at hboth
  obtain ⟨a, ha⟩ := hboth "t" (by simp)
  obtain ⟨b, hb⟩ := hboth "u" (by simp)
  have hlast := (List.append_inj' (ha.trans hb.symm) rfl).2
  revert hlast
  decide

theorem location?_of_mem {name : String} (h : name ∈ ["t", "u"]) :
    ReferenceResolver.location? name = some name := by
  simp only [List.mem_cons, List.not_mem_nil, or_false] at h
  rcases h with rfl | rfl <;> decide

theorem ofText_of_mem {name : String} (h : name ∈ ["t", "u"]) :
    Path.ofText name = ⟨false, [.down name]⟩ := by
  simp only [List.mem_cons, List.not_mem_nil, or_false] at h
  rcases h with rfl | rfl <;> decide

theorem keysOnce_soleReference (name : String) : (soleReference name).KeysOnce := by
  simp [soleReference, Document.KeysOnce, Document.KeysOnceItems, Document.KeysOnceMembers,
    namesOf]

theorem readDocument_soleText {name : String} (h : name ∈ ["t", "u"]) (format : Format) :
    Source.readDocument format (soleText name) = .ok (soleReference name) := by
  cases format with
  | json =>
    refine Source.readDocument_json (toOption_eq_some_iff.mp ?_) (keysOnce_soleReference name)
    simp only [List.mem_cons, List.not_mem_nil, or_false] at h
    rcases h with rfl | rfl <;> decide +kernel
  | yaml =>
    have htree : ((Yaml.Tree.read (soleText name)).toOption.bind fun t =>
        t.bind fun t => t.document.toOption) = some (soleReference name) := by
      simp only [List.mem_cons, List.not_mem_nil, or_false] at h
      rcases h with rfl | rfl <;> decide +kernel
    obtain ⟨_, hread, htree⟩ := Option.bind_eq_some_iff.mp htree
    obtain ⟨t, rfl, hdocument⟩ := Option.bind_eq_some_iff.mp htree
    exact Source.readDocument_yaml (toOption_eq_some_iff.mp hread)
      (toOption_eq_some_iff.mp hdocument) (keysOnce_soleReference name)

theorem located_of_mem {name : String} (h : name ∈ ["t", "u"]) (directory : Path) :
    directory.located name = ⟨directory.absolute, directory.normalize.steps ++ [.down name]⟩ := by
  rw [Path.located_eq (by rw [ofText_of_mem h]), ofText_of_mem h]
  rfl

theorem read_of_soleText {name : String} (h : name ∈ ["t", "u"])
    (htext : files path = .ok (soleText name)) :
    Source.readDocumentFile files path = .ok (soleReference name) := by
  unfold Source.readDocumentFile Source.readFile
  rw [htext]
  change (Source.readDocument _ (soleText name)).mapError _ = _
  rw [readDocument_soleText h]
  rfl

/-- A file that is not beside the one that names it is asked for there and nowhere else. -/
theorem asked_of_soleText (hpath : (Path.ofText path).parent? = some directory) {name : String}
    (h : name ∈ ["t", "u"]) (htext : files path = .ok (soleText name))
    (hnone : Loader.ofFiles files (directory.located name) = none) (base : Option Path) :
    (file ⟨none, none, base, "Root"⟩ files path).asked = [directory.located name] := by
  unfold file
  rw [read_of_soleText h htext]
  exact asked_soleReference (in_ofText hpath _) (location?_of_mem h) hnone base (depthBound - 2)

theorem soleFile_located {name : String} (h : name ∈ ["t", "u"])
    (hends : ¬ name.toList <:+ path.toList) (directory : Path) :
    Loader.ofFiles (soleFile path name) (directory.located name) = none := by
  unfold Loader.ofFiles soleFile
  rw [if_neg]
  · rfl
  · intro hpath
    refine hends ?_
    rw [← hpath, located_of_mem h]
    exact Path.suffix_text _ _ _

/-- Everything that is sought from a directory for the only file is the missing file there. -/
theorem eq_located_of_sought {name : String} (h : name ∈ ["t", "u"])
    (hends : ¬ name.toList <:+ path.toList) {p : Path}
    (hp : Sought (.ofFiles (soleFile path name)) directory (soleReference name) p) :
    p = directory.located name := by
  induction hp with
  | here hlocation =>
    rw [locations_soleReference, location?_of_mem h] at hlocation
    rw [List.mem_singleton.mp hlocation]
  | there _ htext _ _ _ ih =>
    rw [ih, soleFile_located h hends] at htext
    cases htext

/-- Only from a directory that is the same in the shortest way every file can be sought. -/
theorem normalize_eq_of_startsAt (h : (Path.ofText path).parent? = some directory) {base : Path}
    (hbase : ∀ o files, files.Proper → o.base = some base → StartsAt o files path base) :
    base.normalize = directory.normalize := by
  -- With a name that the path does not end with, no path that is sought is the file itself.
  obtain ⟨name, hname, hends⟩ := exists_not_suffix path
  have htext : soleFile path name path = .ok (soleText name) := if_pos rfl
  have hasked := asked_of_soleText h hname htext (soleFile_located hname hends directory)
    (some base)
  have hsought := hbase _ _ (proper_soleFile h name) rfl _ (read_of_soleText hname htext)
    (directory.located name) (hasked ▸ List.mem_cons_self)
  have hsame := eq_located_of_sought hname hends hsought
  rw [located_of_mem hname, located_of_mem hname, Path.mk.injEq] at hsame
  obtain ⟨hroot, hsteps⟩ := hsame
  have hsteps' := List.append_cancel_right hsteps
  unfold Path.normalize at hsteps' ⊢
  simp only at hsteps'
  rw [hroot, hsteps']

/-- The files that an import of a file asks for are sought from the directory of the file,
whatever directory the import is told. So they are sought from the directory that it is told
if and only if both are the same. -/
theorem lookups_start_beside_file {path : String} {directory : Path}
    (hpath : (Path.ofText path).parent? = some directory) :
    (∀ (resolver : ReferenceResolver) d reference location (m : LookupMemory),
      ReferenceResolver.location? reference = some location →
      m.documents.lookup (directory.located location) = none →
      (outcome (resolver.resolve reference ⟨d, some (.ofText path)⟩) m).2.asked =
        directory.located location :: m.asked) ∧
    (∀ o files base, Files.Proper files →
      file { o with base } files path = file o files path) ∧
    (∀ o files, Files.Proper files → StartsAt o files path directory) ∧
    ∀ base, (∀ o files, Files.Proper files → o.base = some base → StartsAt o files path base) ↔
      base.normalize = directory.normalize := by
  refine ⟨?_, ?_, ?_, fun base => ⟨normalize_eq_of_startsAt hpath, ?_⟩⟩
  · intro resolver d reference location m hlocation hnew
    rw [ReferenceResolver.asked_resolve resolver m (in_ofText hpath d), hlocation]
    simp [hnew]
  · exact fun o files base hfiles => file_base hpath hfiles base
  · exact fun o files hfiles => startsAt_directory hpath hfiles
  · intro hsame o files hfiles _ d hd p hp
    exact (startsAt_directory hpath hfiles d hd p hp).of_normalize hsame.symm

/-- A schema of records with one field. -/
def idText : String := "\x7b\"properties\":\x7b\"id\":\x7b\"type\":\"integer\"\x7d\x7d\x7d"

def idSchema : Document :=
  .object [("properties", .object [("id", .object [("type", .string "integer")])])]

/-- A schema that names a file which is not beside it but in a directory of shared files. -/
def shared : FileTree := .ofList [("api/root.json", soleText "t"), ("lib/t", idText)]

/-- The directory of the schema. -/
def api : Path := ⟨false, [.down "api"]⟩

/-- The directory of the shared files. -/
def lib : Path := ⟨false, [.down "lib"]⟩

theorem lookups_start_beside_file_shared :
    (Path.ofText "api/root.json").parent? = some api ∧
      file { ImportOptions.usual with base := some lib } shared.read "api/root.json" =
        file ImportOptions.usual shared.read "api/root.json" ∧
      StartsAt { ImportOptions.usual with base := some lib } shared.read "api/root.json" api ∧
      ¬ ∀ o files, Files.Proper files → o.base = some lib →
        StartsAt o files "api/root.json" lib := by
  have hpath : (Path.ofText "api/root.json").parent? = some api := by decide
  have hdiffer : lib.normalize ≠ api.normalize := by decide
  obtain ⟨-, hbase, hstarts, hiff⟩ := lookups_start_beside_file hpath
  refine ⟨hpath, hbase _ _ _ shared.proper_read, hstarts _ _ shared.proper_read, ?_⟩
  intro hlib
  exact hdiffer ((hiff lib).mp hlib)

theorem readDocument_idText : Source.readDocument .json idText = .ok idSchema := by
  refine Source.readDocument_json (toOption_eq_some_iff.mp (by decide +kernel)) ?_
  simp [idSchema, Document.KeysOnce, Document.KeysOnceMembers, namesOf]

/-- The import of the schema that is told the directory of the shared files does not ask for
the file there. -/
theorem not_startsAt_lib :
    ¬ StartsAt { ImportOptions.usual with base := some lib } shared.read "api/root.json" lib := by
  have htext : shared.read "api/root.json" = .ok (soleText "t") := rfl
  have hpath : (Path.ofText "api/root.json").parent? = some api := by decide
  have hnone : Loader.ofFiles shared.read (api.located "t") = none := by decide
  have hasked := asked_of_soleText hpath (by simp) htext hnone (some lib)
  have hsought {p : Path} (hp : Sought (.ofFiles shared.read) lib (soleReference "t") p) :
      p = lib.located "t" := by
    induction hp with
    | here hlocation =>
      rw [locations_soleReference, location?_of_mem (by simp)] at hlocation
      rw [List.mem_singleton.mp hlocation]
    | there _ htext hread _ hlocation ih =>
      rw [ih] at htext hread
      have hid : Loader.ofFiles shared.read (lib.located "t") = some idText := by decide
      obtain rfl := Option.some.inj (hid.symm.trans htext)
      have hformat : Format.ofPath (lib.located "t") = .json := by decide
      rw [hformat, readDocument_idText] at hread
      obtain rfl := Except.ok.inj hread
      have hnone : idSchema.locations = [] := by decide
      rw [hnone] at hlocation
      cases hlocation
  intro hstarts
  have hapi := hsought (hstarts _ (read_of_soleText (by simp) htext) (api.located "t")
    (hasked ▸ List.mem_cons_self))
  revert hapi
  decide

end Import

end RecordDefinitions
