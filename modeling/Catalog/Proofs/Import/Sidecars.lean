import Catalog.Proofs.Files.Walk
import Catalog.Import.Scan

/-! What becomes of sidecars. A scan passes over the sidecars of the files that it comes across, and each of
those files reads its own when it is sent. A file that is passed over reads nothing, so that the sidecar of a
sidecar is lost. -/

namespace Catalog.Import

open Catalog.Files Catalog.Json Catalog.Text

/-! ### Names -/

section Names

variable {files : FileTree} {directory : Path} {name stem : Name}

theorem sidecarOf_join (directory : Path) (name : Name) :
    sidecarOf (directory.join name) = directory.join (name ++ sidecarEnd) :=
  Path.join_append directory name sidecarEnd

theorem sidecarOf_inj {base other : Path} : sidecarOf base = sidecarOf other ↔ base = other := by
  rw [RawText.ext_iff, sidecarOf, sidecarOf, RawText.bytes_append, RawText.bytes_append,
    List.append_cancel_right_eq, ← RawText.ext_iff]

/-- The end of a sidecar is of ASCII, so that it is a text exactly if its base is one. -/
theorem isHidden_append (h : stem.bytes ≠ []) : isHidden (stem ++ sidecarEnd) = isHidden stem := by
  have htext : (stem ++ sidecarEnd).text?.isSome = stem.text?.isSome := by
    rw [sidecarEnd, RawText.text?_append (by simp), Option.isSome_map]
  rw [Bool.eq_iff_iff, isHidden_iff, isHidden_iff, htext, RawText.bytes_append,
    List.head?_append_of_ne_nil _ h]

theorem proper_json (h : stem.Proper) : (stem ++ sidecarEnd).Proper := by
  have hlast : (stem ++ sidecarEnd).bytes.getLast? = some 'n'.toUInt8 := by
    rw [RawText.bytes_append, List.getLast?_append_of_ne_nil _ (by decide)]
    decide
  have hne : ∀ other : Name, other.bytes.getLast? ≠ some 'n'.toUInt8 → stem ++ sidecarEnd ≠ other := by
    rintro _ hother rfl
    exact hother hlast
  refine ⟨?_, ?_, ?_, hne _ (by decide), hne _ (by decide)⟩
  · rw [RawText.bytes_append]
    exact List.append_ne_nil_of_left_ne_nil h.notEmpty _
  · rw [RawText.bytes_append, List.mem_append, not_or]
    exact ⟨h.noSlash, by decide⟩
  · rw [RawText.bytes_append, List.mem_append, not_or]
    exact ⟨h.noZero, by decide⟩

theorem proper_of_json (h : (stem ++ sidecarEnd).Proper) (hvisible : isHidden (stem ++ sidecarEnd) = false)
    (hstem : stem.bytes ≠ []) : stem.Proper := by
  have hmem : ∀ byte ∈ stem.bytes, byte ∈ (stem ++ sidecarEnd).bytes :=
    fun byte hbyte => List.mem_append_left _ hbyte
  rw [isHidden_append hstem] at hvisible
  refine ⟨hstem, fun hslash => h.noSlash (hmem _ hslash), fun hzero => h.noZero (hmem _ hzero), ?_, ?_⟩
  · rintro rfl
    exact absurd hvisible (by decide)
  · rintro rfl
    exact absurd hvisible (by decide)

theorem split_json_iff : name.split = (stem.bytes, some sidecarExtension.bytes) ↔
    stem.bytes ≠ [] ∧ name = stem ++ sidecarEnd := by
  have hend : sidecarEnd.bytes = point :: sidecarExtension.bytes := by decide
  rw [Name.split_eq_iff, RawText.ext_iff, RawText.bytes_append, hend]
  constructor
  · rintro ⟨hname, -, hstem⟩
    exact ⟨hstem, hname⟩
  · rintro ⟨hstem, hname⟩
    exact ⟨hname, by decide, hstem⟩

/-- A file is passed over exactly if its name is that of a file beside it with `.json` added. -/
theorem isSidecar_join_iff (h : name.Proper) : isSidecar files (directory.join name) = true ↔
    ∃ stem : Name, stem.bytes ≠ [] ∧ name = stem ++ sidecarEnd ∧
      files.isFile (directory.join stem) = true := by
  rw [isSidecar, Bool.and_eq_true, beq_iff_eq, Option.any_eq_true, Path.extension?_join h]
  constructor
  · rintro ⟨hextension, base, hbase, hfile⟩
    obtain ⟨extension, hsplit, hjson⟩ := Option.map_eq_some_iff.mp hextension
    have hwhole : name.split = (RawText.bytes ⟨name.split.1⟩, some sidecarExtension.bytes) := by
      rw [← hjson, ← hsplit]
    rw [Path.withoutExtension?_join h hwhole] at hbase
    obtain rfl := Option.some.inj hbase
    obtain ⟨hstem, hname⟩ := split_json_iff.mp hwhole
    exact ⟨_, hstem, hname, hfile⟩
  · rintro ⟨stem, hstem, hname, hfile⟩
    have hsplit := split_json_iff.mpr ⟨hstem, hname⟩
    exact ⟨by rw [hsplit]; rfl, directory.join stem, Path.withoutExtension?_join h hsplit, hfile⟩

end Names

/-! ### Reading a sidecar -/

/-- The job of a file reads another one as its sidecar: what that says goes into the document, and where it
says nothing the job fails. -/
def Reads (files : FileTree) (base file : Path) : Prop :=
  file = sidecarOf base ∧ ∃ own given, files.read base = .ok own ∧ files.read file = .ok given ∧
    Job.ofPath files base = (said file (.sound given)).map fun value =>
      ⟨base, merged (ownFields base (.sound own)) value, imageHashes base (.sound own)⟩

section Scan

variable {files : FileTree} {root base file : Path}

theorem reads_of_isFile (hreadable : files.Readable) (hbase : files.isFile base = true)
    (hfile : files.isFile (sidecarOf base) = true) : Reads files base (sidecarOf base) := by
  obtain ⟨own, modified, hown⟩ := hreadable.exists_stat hbase
  obtain ⟨given, modified', hgiven⟩ := hreadable.exists_stat hfile
  refine ⟨rfl, own, given, by rw [FileTree.read, hown]; rfl, by rw [FileTree.read, hgiven]; rfl, ?_⟩
  have hread : readSidecar files base = said (sidecarOf base) (.sound given) := by
    rw [readSidecar, hgiven]
  rw [Job.ofPath, hown]
  dsimp only [Content.readStart]
  rw [hread]
  rfl

theorem source?_eq_some_iff {visit : Visit} :
    source? files visit = some file ↔ visit = .file file ∧ isSidecar files file = false := by
  cases visit with
  | unreadable missed => simp [source?]
  | file found =>
    rw [source?, Visit.file.injEq]
    split
    · rename_i hsidecar
      refine iff_of_false (Option.some_ne_none file).symm ?_
      rintro ⟨rfl, hnot⟩
      rw [hsidecar] at hnot
      cases hnot
    · rename_i hsidecar
      rw [Option.some.injEq]
      refine (and_iff_left_of_imp ?_).symm
      rintro rfl
      exact Bool.eq_false_iff.mpr hsidecar

theorem mem_sources_iff :
    file ∈ sources files root ↔ files.Reaches root file ∧ isSidecar files file = false := by
  rw [sources, List.mem_filterMap]
  constructor
  · rintro ⟨visit, hvisit, hsent⟩
    obtain ⟨rfl, hsource⟩ := source?_eq_some_iff.mp hsent
    exact ⟨hvisit, hsource⟩
  · rintro ⟨hreached, hsource⟩
    exact ⟨.file file, hreached, source?_eq_some_iff.mpr ⟨rfl, hsource⟩⟩

/-- The sidecar of a file that the walk comes across is passed over. -/
theorem isSidecar_sidecarOf (h : files.WellFormed) (hroot : files.isDirectory root = true)
    (hbase : files.Reaches root base) : isSidecar files (sidecarOf base) = true := by
  obtain ⟨directory, name, rfl, hname, -, hfile, -⟩ := FileTree.exists_of_reaches h hroot hbase
  rw [sidecarOf_join, isSidecar_join_iff (proper_json hname)]
  exact ⟨name, hname.notEmpty, rfl, hfile⟩

/-- What is passed over is the sidecar of a file that the walk comes across as well. -/
theorem exists_base (h : files.WellFormed) (hreadable : files.Readable)
    (hroot : files.isDirectory root = true) (hfile : files.Reaches root file)
    (hsidecar : isSidecar files file = true) :
    ∃ base, files.Reaches root base ∧ Reads files base file := by
  obtain ⟨directory, name, rfl, hname, hvisible, hisFile, hbeside⟩ :=
    FileTree.exists_of_reaches h hroot hfile
  obtain ⟨stem, hstem, rfl, hbase⟩ := (isSidecar_join_iff hname).mp hsidecar
  have hstemName := proper_of_json hname hvisible hstem
  rw [isHidden_append hstem] at hvisible
  refine ⟨directory.join stem, hbeside stem hstemName hvisible hbase, ?_⟩
  rw [← sidecarOf_join] at hisFile ⊢
  exact reads_of_isFile hreadable hbase hisFile

/-- What a scan of a directory makes of the sidecars in it. -/
structure ReadsSidecars (files : FileTree) (root : Path) : Prop where
  -- A file that is not sent is the sidecar of one that the walk comes across,
  beside : ∀ file, files.Reaches root file → file ∉ sources files root →
    ∃ base, files.Reaches root base ∧ Reads files base file
  -- and one that is sent reads it unless the file beside it is itself a sidecar.
  read_iff : ∀ file, files.Reaches root file → file ∉ sources files root →
    ((∃ base ∈ sources files root, Reads files base file) ↔
      ¬∃ first, files.Reaches root first ∧ file = sidecarOf (sidecarOf first))
  -- A file that is sent is no sidecar.
  once : ∀ file ∈ sources files root, ∀ base, files.Reaches root base → ¬Reads files base file

/-- In a tree whose files can be read, what a scan passes over is read by a file that is sent, sidecars of
sidecars apart, and nothing that is sent is read as a sidecar. -/
theorem scan_readsSidecars (h : files.WellFormed) (hreadable : files.Readable)
    (hroot : files.isDirectory root = true) : ReadsSidecars files root := by
  have hpassed : ∀ file, files.Reaches root file → file ∉ sources files root →
      isSidecar files file = true := by
    intro file hfile hnot
    rw [mem_sources_iff, not_and, Bool.not_eq_false] at hnot
    exact hnot hfile
  constructor
  case beside => exact fun file hfile hnot => exists_base h hreadable hroot hfile (hpassed file hfile hnot)
  case once =>
    rintro file hsent base hbase ⟨rfl, -⟩
    have hsidecar := (mem_sources_iff.mp hsent).2
    rw [isSidecar_sidecarOf h hroot hbase] at hsidecar
    cases hsidecar
  case read_iff =>
    intro file hfile hnot
    obtain ⟨base, hbase, hreads⟩ := exists_base h hreadable hroot hfile (hpassed file hfile hnot)
    constructor
    · rintro ⟨sent, hsent, hsentReads⟩ ⟨first, hfirst, hchain⟩
      obtain rfl : sent = sidecarOf first := sidecarOf_inj.mp (hsentReads.1.symm.trans hchain)
      have hsidecar := (mem_sources_iff.mp hsent).2
      rw [isSidecar_sidecarOf h hroot hfirst] at hsidecar
      cases hsidecar
    · intro hchain
      refine ⟨base, mem_sources_iff.mpr ⟨hbase, ?_⟩, hreads⟩
      rw [← Bool.not_eq_true]
      intro hsidecar
      obtain ⟨first, hfirst, rfl, -⟩ := exists_base h hreadable hroot hbase hsidecar
      exact hchain ⟨first, hfirst, hreads.1⟩

/-- Of three files of which each but the first is the sidecar of the one before, only the first is sent, and
it does not read the third. -/
theorem sidecar_of_sidecar_is_lost :
    let files : FileTree := ⟨[(["r"], .directory), (["r", "a"], .file (.sound [120]) 0),
      (["r", "a.json"], .file (.sound [123, 125]) 0), (["r", "a.json.json"], .file (.sound [123, 125]) 0)]⟩
    files.Reaches "r" "r/a.json.json" ∧ sources files "r" = [("r/a" : Path)] ∧
      ¬∃ base ∈ sources files "r", Reads files base "r/a.json.json" := by
  intro files
  have hsources : sources files "r" = [("r/a" : Path)] := by decide +kernel
  refine ⟨by decide +kernel, hsources, ?_⟩
  rintro ⟨base, hbase, hreads, -⟩
  rw [hsources, List.mem_singleton] at hbase
  subst hbase
  exact absurd hreads (by decide +kernel)

/-- A sidecar is passed over and read, beside a name in capitals, a hidden file and a link. -/
theorem sidecar_is_read :
    let files : FileTree := ⟨[(["r"], .directory), (["r", ".b"], .file (.sound []) 0),
      (["r", "a"], .file (.sound [123, 125]) 0), (["r", "a.JSON"], .file (.sound []) 0),
      (["r", "a.json"], .link "a"), (["r", "b.json"], .file (.sound []) 0)]⟩
    (files.WellFormed ∧ files.Readable ∧ files.isDirectory "r" = true) ∧
      sources files "r" = [("r/a" : Path), "r/a.JSON", "r/b.json"] ∧
      ∃ base ∈ sources files "r", Reads files base "r/a.json" := by
  intro files
  have hwellFormed : files.WellFormed := by decide +kernel
  have hreadable : files.Readable := by decide +kernel
  have hroot : files.isDirectory "r" = true := by decide +kernel
  have hsources : sources files "r" = [("r/a" : Path), "r/a.JSON", "r/b.json"] := by decide +kernel
  refine ⟨⟨hwellFormed, hreadable, hroot⟩, hsources, ?_⟩
  have hsidecars := scan_readsSidecars hwellFormed hreadable hroot
  have hreached : files.Reaches "r" "r/a.json" := by decide +kernel
  have hnot : ("r/a.json" : Path) ∉ sources files "r" := by
    rw [hsources]
    decide
  refine (hsidecars.read_iff "r/a.json" hreached hnot).mpr ?_
  rintro ⟨first, -, hchain⟩
  have hbase : ("r/a" : Path) = sidecarOf first :=
    sidecarOf_inj.mp ((by decide : _ = ("r/a.json" : Path)).trans hchain)
  have hlast := congrArg (fun path : Path => path.bytes.getLast?) hbase
  rw [sidecarOf, RawText.bytes_append,
    List.getLast?_append_of_ne_nil _ (by decide)] at hlast
  exact absurd hlast (by decide)

end Scan

end Catalog.Import
