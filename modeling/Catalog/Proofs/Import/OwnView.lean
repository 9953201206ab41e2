import Catalog.Proofs.Field.Normalized
import Catalog.Proofs.Field.Overlap
import Catalog.Proofs.Files.Path
import Catalog.Proofs.Import.Intake
import Catalog.Proofs.Store.Provenance
import Mathlib.Data.Nat.Digits.Defs

/-! What a file says of itself. Its sidecar may say what it likes: the category of the file, its record and
its fingerprints are those of the path and the bytes. -/

namespace Catalog

open Catalog.Digest Catalog.Files Catalog.Import Catalog.Json Catalog.Order Catalog.Text

/-! ### Texts that are not cut -/

namespace Text

theorem length_smallForm_le (before : List Char) (c : Char) (after : List Char) :
    (smallForm before c after).length ≤ 2 := by
  unfold smallForm
  split
  · exact Nat.le_refl 2
  · split
    · split <;> exact Nat.le_succ 1
    · exact Nat.le_succ 1

/-- Small letters are at most twice as many. -/
theorem length_smallFormsAfter_le (before s : List Char) :
    (smallFormsAfter before s).length ≤ 2 * s.length := by
  induction s generalizing before with
  | nil => exact Nat.le_refl 0
  | cons c rest ih =>
    have hfirst := length_smallForm_le before c rest
    have hrest := ih (c :: before)
    rw [smallFormsAfter, List.length_append, List.length_cons]
    omega

end Text

namespace FlattenRules

theorem cut_of_le {rules : FlattenRules} {text : String} (h : text.length ≤ rules.maxValueLength) :
    rules.cut text = text := by
  rw [cut, List.take_of_length_le (by rwa [String.length_toList]), String.ofList_toList]

end FlattenRules

namespace Import

/-! ### The document of a file -/

/-- What a sidecar says that is not about the file itself. -/
def others : Value → List (String × Value)
  | .object members => members.filter fun m => m.1 ≠ ownCategory
  | _ => []

theorem ne_of_mem_others {sidecar : Value} {m : String × Value} (h : m ∈ others sidecar) :
    m.1 ≠ ownCategory := by
  unfold others at h
  split at h
  · simpa using (List.mem_filter.mp h).2
  · cases h

theorem merged_eq (own sidecar : Value) :
    merged own sidecar = .object (keyed ((ownCategory, own) :: others sidecar)) := by
  cases sidecar <;> rfl

/-- The four fields of a file itself, uncut: its extension in small letters, its media type, its name and
its size. -/
def ownTexts (path : Path) (content : Content) : FieldMap :=
  [(⟨ownCategory, "extension"⟩, (path.extension?.map fun e => smallLetters e.text).getD ""),
    (⟨ownCategory, "mime"⟩, Media.typeOf content.bytes),
    (⟨ownCategory, "name"⟩, (path.fileName?.map RawText.text).getD ""),
    (⟨ownCategory, "size"⟩, String.ofList (Nat.toDigits 10 content.size))]

/-- The four fields as they are stored under some rules. -/
def ownView (rules : FlattenRules) (path : Path) (content : Content) : FieldMap :=
  (ownTexts path content).map fun e => (e.1, rules.cut e.2)

theorem ownFields_eq (path : Path) (content : Content) :
    ownFields path content = .object
      [("extension", .string ((path.extension?.map fun e => smallLetters e.text).getD "")),
        ("mime", .string (Media.typeOf content.bytes)),
        ("name", .string ((path.fileName?.map RawText.text).getD "")),
        ("size", .number (.integer content.size))] := by
  have hextension : "extension" < "name" := by decide +kernel
  have hsize : ¬"size" < "extension" ∧ ¬"size" < "name" := by decide +kernel
  have hmime : ¬"mime" < "extension" ∧ "mime" < "name" := by decide +kernel
  simp [ownFields, Value.ofMembers, keyed, put, hextension, hsize, hmime]

theorem flatten_ownFields (path : Path) (content : Content) :
    flatten {} (.object [(ownCategory, ownFields path content)]) = ownView {} path content := by
  have hkeys : ∀ key ∈ ["extension", "mime", "name", "size"], FlattenRules.reserves {} key = false := by
    decide +kernel
  have hmarker : "_locked" ∉ ["extension", "mime", "name", "size"] := by decide +kernel
  have hmembers : ["extension", "mime", "name", "size"].Pairwise (· < ·) := by decide +kernel
  rw [ownFields_eq]
  exact FlattenRules.flatten_single (by decide +kernel) hkeys hmarker
    (List.pairwise_map.mp hmembers)

/-- No name with a number at its end is that of the category of the file itself. -/
theorem numbered_ne_ownCategory (category : String) (index : Nat) :
    FlattenRules.numbered category index ≠ ownCategory := by
  intro h
  have hmem : '_' ∈ (FlattenRules.numbered category index).toList := by
    rw [FlattenRules.toList_numbered]
    simp
  rw [h] at hmem
  exact absurd hmem (by decide)

/-- The leaves of the category of the file itself are those of its member. -/
theorem category_leaf_iff {path : Path} {content : Content} {sidecar : Value} {m : String × Value}
    (hm : m ∈ keyed ((ownCategory, ownFields path content) :: others sidecar)) {leaf : FieldKey × Value}
    (hleaf : leaf ∈ FlattenRules.memberLeaves {} m.1 m.2) :
    leaf.1.category = ownCategory ↔ m.1 = ownCategory := by
  rcases List.mem_cons.mp (mem_of_mem_keyed hm) with rfl | hother
  · rw [ownFields_eq] at hleaf
    exact iff_of_true (FlattenRules.category_of_mem_categoryLeaves hleaf) rfl
  · refine iff_of_false ?_ (ne_of_mem_others hother)
    rcases FlattenRules.category_of_mem_memberLeaves hleaf with hsame | ⟨index, hnumbered⟩
    · rw [hsame]
      exact ne_of_mem_others hother
    · rw [hnumbered]
      exact numbered_ne_ownCategory _ _

/-! ### Its fields -/

section Fields

variable (path : Path) (content : Content) (sidecar : Value)

/-- The fields of a file and its sidecar in the category of the file itself. -/
theorem flatten_merged_own :
    (flatten {} (merged (ownFields path content) sidecar)).filter
        (fun e => decide (e.1.category = ownCategory)) = ownView {} path content := by
  have hothers : (others sidecar).filter (fun m => decide (m.1 = ownCategory)) = [] :=
    List.filter_eq_nil_iff.mpr fun m hm => by simpa using ne_of_mem_others hm
  rw [merged_eq, FlattenRules.filter_flatten (fun category => decide (category = ownCategory)),
    filter_keyed (fun category => decide (category = ownCategory)), List.filter_cons_of_pos (by simp),
    hothers]
  · exact flatten_ownFields path content
  · intro m hm leaf hleaf
    rw [decide_eq_decide]
    exact category_leaf_iff hm hleaf

/-- The other fields are those that the sidecar has without a category of that name. -/
theorem flatten_merged_others :
    (flatten {} (merged (ownFields path content) sidecar)).filter
        (fun e => decide (e.1.category ≠ ownCategory)) = flatten {} (.ofMembers (others sidecar)) := by
  have hothers : (others sidecar).filter (fun m => decide (m.1 ≠ ownCategory)) = others sidecar :=
    List.filter_eq_self.mpr fun m hm => by simpa using ne_of_mem_others hm
  rw [merged_eq, FlattenRules.filter_flatten (fun category => decide (category ≠ ownCategory)),
    filter_keyed (fun category => decide (category ≠ ownCategory)), List.filter_cons_of_neg (by simp),
    hothers]
  · rfl
  · intro m hm leaf hleaf
    rw [decide_eq_decide, not_iff_not]
    exact category_leaf_iff hm hleaf

end Fields

/-- The media types that are told apart are short. -/
theorem length_typeOf_le (bytes : List UInt8) : (Media.typeOf bytes).length ≤ 1000 := by
  have hknown : ∀ signature ∈ Media.signatures, signature.type.length ≤ 1000 := by decide +kernel
  unfold Media.typeOf
  split
  · rename_i signature hfind
    exact hknown signature (List.mem_of_find?_eq_some hfind)
  · decide +kernel

/-- Nothing is cut of a file whose name is not beyond all measure. -/
theorem ownView_eq {path : Path} {content : Content}
    (hname : ((path.fileName?.map RawText.text).getD "").length ≤ 500)
    (hsize : content.size < Nat.pow 2 64) : ownView {} path content = ownTexts path content := by
  have hextension : ((path.extension?.map fun e => smallLetters e.text).getD "").length ≤ 1000 := by
    cases hextension : path.extension? with
    | none => exact Nat.zero_le _
    | some extension =>
      have hlong := Path.length_text_extension?_le hextension
      have hsmall := length_smallFormsAfter_le [] extension.text.toList
      rw [String.length_toList] at hsmall
      rw [Option.map_some, Option.getD_some, smallLetters, String.length_ofList]
      omega
  have hdigits : (String.ofList (Nat.toDigits 10 content.size)).length ≤ 1000 := by
    have hbound : content.size < 10 ^ 20 := Nat.lt_trans hsize (by decide)
    have hlength := Nat.toDigits_length 10 content.size 20 (by decide) hbound
    rw [String.length_ofList]
    omega
  have hall : ∀ e ∈ ownTexts path content, e.2.length ≤ 1000 := by
    intro e he
    simp only [ownTexts, List.mem_cons, List.not_mem_nil, or_false] at he
    obtain rfl | rfl | rfl | rfl := he
    · exact hextension
    · exact length_typeOf_le content.bytes
    · exact Nat.le_trans hname (by decide)
    · exact hdigits
  rw [ownView]
  refine (List.map_congr_left fun e he => ?_).trans (List.map_id _)
  rw [FlattenRules.cut_of_le (hall e he)]
  rfl

/-! ### What is stored -/

/-- The fields in the category of the file itself. -/
def ofFile (fields : FieldMap) : FieldMap := fields.filter fun e => decide (e.1.category = ownCategory)

/-- The fields outside of that category. -/
def notOfFile (fields : FieldMap) : FieldMap := fields.filter fun e => decide (e.1.category ≠ ownCategory)

/-- What was deposited for a path and has the digest of the bytes is these bytes. -/
def Undisputed (log : List Deposit) (path : Path) (bytes : List UInt8) : Prop :=
  ∀ deposit ∈ log, deposit.path = path.text → sha256 deposit.bytes = sha256 bytes → deposit.bytes = bytes

/-- What a job says of the file itself, and an upsert makes of it, is what the path and the bytes say. -/
structure IsOwn (files : FileTree) (path : Path) (content : Content) (job : Job) : Prop where
  source : job.path = path
  -- The four fields are the only ones in the category of the file,
  explicit : ofFile (Extracted.ofDocument {} job.document).explicit = ownView {} path content
  derived : ofFile (Extracted.ofDocument {} job.document).derived = []
  all : ofFile (Extracted.ofDocument {} job.document).all = ownView {} path content
  -- and what the sidecar gives are the others.
  rest : ∃ sidecar, readSidecar files path = .ok sidecar ∧
    notOfFile (Extracted.ofDocument {} job.document).explicit = flatten {} (.ofMembers (others sidecar))
  hashes : job.hashes = imageHashes path content
  record : ∀ {store store' : Store} {log : List Deposit} {now : Timestamp}
    {favorite : Option FavoriteInput} {id : FileId}, store.Logged (fun _ => True) log →
    store.upsert files now job.path job.document job.hashes favorite = (store', .ok id) →
    ∃ file, store'.fileAt? path = some file ∧ file.hash = sha256 content.bytes ∧
      (Undisputed log path content.bytes → file.Describes content.bytes)

/-- The records that two jobs leave, in whatever catalogs, agree in their digest, and in size and type if
the digest tells bytes apart. -/
def SameRecord (files files' : FileTree) (path : Path) (content : Content) (job job' : Job) : Prop :=
  ∀ {first first' second second' : Store} {log log' : List Deposit} {now now' : Timestamp}
    {favorite favorite' : Option FavoriteInput} {id id' : FileId},
    first.Logged (fun _ => True) log → second.Logged (fun _ => True) log' →
    first.upsert files now job.path job.document job.hashes favorite = (first', .ok id) →
    second.upsert files' now' job'.path job'.document job'.hashes favorite' = (second', .ok id') →
    ∃ file file', first'.fileAt? path = some file ∧ second'.fileAt? path = some file' ∧
      file.hash = file'.hash ∧
      (Undisputed log path content.bytes → Undisputed log' path content.bytes →
        file.size = file'.size ∧ file.type = file'.type)

section Job

variable {files files' : FileTree} {path : Path} {content : Content} {modified modified' : Int}
  {job job' : Job}

theorem exists_sidecar (hstat : files.stat path = .ok (.file content modified))
    (hjob : Job.ofPath files path = .ok job) :
    ∃ sidecar, readSidecar files path = .ok sidecar ∧
      job = ⟨path, merged (ownFields path content) sidecar, imageHashes path content⟩ := by
  obtain ⟨found, _, _, sidecar, hfound, -, hsidecar, rfl⟩ := Job.ofPath_eq_ok_iff.mp hjob
  cases hstat.symm.trans hfound
  exact ⟨sidecar, hsidecar, rfl⟩

theorem describes_of_upsert {store store' : Store} {log : List Deposit} {now : Timestamp} {document : Value}
    {hashes : Option (List (String × String))} {favorite : Option FavoriteInput} {id : FileId}
    (hlogged : store.Logged (fun _ => True) log) (hstat : files.stat path = .ok (.file content modified))
    (hok : store.upsert files now path document hashes favorite = (store', .ok id)) :
    ∃ file, store'.fileAt? path = some file ∧ file.hash = sha256 content.bytes ∧
      (Undisputed log path content.bytes → file.Describes content.bytes) := by
  -- What is stored could be read.
  obtain ⟨seen, hseen, -⟩ := Store.upsert_ok hok
  obtain ⟨bytes, _, hfound, -⟩ := Store.stat_of_ofPath hseen
  cases hstat.symm.trans hfound
  obtain ⟨file, hfile, -, hpath, hrecorded⟩ := hlogged.recorded_upsert hstat hok
  obtain ⟨latest, hlatest, -, hhash⟩ := hrecorded.latest
  rw [latest?_cons_self hpath.symm] at hlatest
  obtain rfl := Option.some.inj hlatest
  refine ⟨file, hfile, hhash, fun hsame => ?_⟩
  obtain ⟨source, hsource, hsourcePath, hdescribes⟩ := hrecorded.source
  rcases List.mem_cons.mp hsource with rfl | hold
  · exact hdescribes
  · rw [← hsame source hold (hsourcePath.trans hpath) (hdescribes.hash.symm.trans hhash)]
    exact hdescribes

theorem isOwn_of_ofPath (hstat : files.stat path = .ok (.file content modified))
    (hjob : Job.ofPath files path = .ok job) : IsOwn files path content job := by
  obtain ⟨sidecar, hsidecar, rfl⟩ := exists_sidecar hstat hjob
  have hexplicit := flatten_merged_own path content sidecar
  have hderived :
      ofFile (Extracted.ofDocument {} (merged (ownFields path content) sidecar)).derived = [] := by
    refine List.filter_eq_nil_iff.mpr fun e he => ?_
    rw [(FieldMap.mem_normalized he).2.1]
    decide
  have hascending := ascending_flatten {} (merged (ownFields path content) sidecar)
  refine ⟨rfl, hexplicit, hderived, ?_, ⟨sidecar, hsidecar, flatten_merged_others path content sidecar⟩, rfl,
    fun hlogged hok => describes_of_upsert hlogged hstat hok⟩
  rw [ofFile] at hderived
  rw [Extracted.all_eq_keyed hascending, ofFile,
    filter_keyed (fun field : FieldKey => decide (field.category = ownCategory)), List.filter_append,
    hderived, List.append_nil]
  exact (Ascending.keyed_eq (List.Pairwise.filter _ hascending)).trans hexplicit

theorem sameRecord_of_isOwn (h : IsOwn files path content job) (h' : IsOwn files' path content job') :
    SameRecord files files' path content job job' := by
  intro first first' second second' log log' now now' favorite favorite' id id' hfirst hsecond hok hok'
  obtain ⟨file, hfile, hhash, hdescribes⟩ := h.record hfirst hok
  obtain ⟨file', hfile', hhash', hdescribes'⟩ := h'.record hsecond hok'
  refine ⟨file, file', hfile, hfile', hhash.trans hhash'.symm, fun hlog hlog' => ⟨?_, ?_⟩⟩
  · rw [(hdescribes hlog).size, (hdescribes' hlog').size]
  · rw [(hdescribes hlog).type, (hdescribes' hlog').type]

/-- Whatever sidecars stand beside a file, what is stored in its category and in its record, and its
fingerprints, are what the path and the bytes say, and so the same in both cases. -/
theorem own_view_is_authentic (hstat : files.stat path = .ok (.file content modified))
    (hstat' : files'.stat path = .ok (.file content modified')) (hjob : Job.ofPath files path = .ok job)
    (hjob' : Job.ofPath files' path = .ok job') :
    IsOwn files path content job ∧ IsOwn files' path content job' ∧
      ofFile (Extracted.ofDocument {} job.document).all =
        ofFile (Extracted.ofDocument {} job'.document).all ∧
      job.hashes = job'.hashes ∧ SameRecord files files' path content job job' ∧
      (((path.fileName?.map RawText.text).getD "").length ≤ 500 → content.size < Nat.pow 2 64 →
        ownView {} path content = ownTexts path content) := by
  have hown := isOwn_of_ofPath hstat hjob
  have hown' := isOwn_of_ofPath hstat' hjob'
  exact ⟨hown, hown', hown.all.trans hown'.all.symm, hown.hashes.trans hown'.hashes.symm,
    sameRecord_of_isOwn hown hown', ownView_eq⟩

/-- A sidecar that gives another name in every way there is, and none at all. -/
theorem own_view_beside_other_name :
    let sidecar := "\x7b\"fil\":[\x7b\"name\":\"b\"\x7d],\"file\":\x7b\"name\":\"b\"\x7d,\"format\":\"b\"\x7d"
    let files : FileTree :=
      ⟨[(["a.BMP"], .file (.sound [66, 77]) 0), (["a.BMP.json"], .file (.sound (Media.ascii sidecar)) 0)]⟩
    let files' : FileTree := ⟨[(["a.BMP"], .file (.sound [66, 77]) 7)]⟩
    (files.stat "a.BMP" = .ok (.file (.sound [66, 77]) 0) ∧
        files'.stat "a.BMP" = .ok (.file (.sound [66, 77]) 7)) ∧
      ∃ job job', Job.ofPath files "a.BMP" = .ok job ∧ Job.ofPath files' "a.BMP" = .ok job' ∧
        SameRecord files files' "a.BMP" (.sound [66, 77]) job job' ∧
        ofFile (Extracted.ofDocument {} job.document).all =
          [(⟨"file", "extension"⟩, "bmp"), (⟨"file", "mime"⟩, "image/bmp"), (⟨"file", "name"⟩, "a.BMP"),
            (⟨"file", "size"⟩, "2")] := by
  intro sidecar files files'
  have hstat : files.stat "a.BMP" = .ok (.file (.sound [66, 77]) 0) := by decide +kernel
  have hstat' : files'.stat "a.BMP" = .ok (.file (.sound [66, 77]) 7) := by decide +kernel
  have hisOk : (Job.ofPath files "a.BMP").isOk = true := by decide +kernel
  have hisOk' : (Job.ofPath files' "a.BMP").isOk = true := by decide +kernel
  have hview : ownTexts "a.BMP" (.sound [66, 77]) =
      [(⟨"file", "extension"⟩, "bmp"), (⟨"file", "mime"⟩, "image/bmp"), (⟨"file", "name"⟩, "a.BMP"),
        (⟨"file", "size"⟩, "2")] := by
    decide +kernel
  refine ⟨⟨hstat, hstat'⟩, ?_⟩
  cases hjob : Job.ofPath files "a.BMP" with
  | error cause => rw [hjob] at hisOk; cases hisOk
  | ok job =>
    cases hjob' : Job.ofPath files' "a.BMP" with
    | error cause => rw [hjob'] at hisOk'; cases hisOk'
    | ok job' =>
      obtain ⟨hown, -, -, -, hrecord, huncut⟩ := own_view_is_authentic hstat hstat' hjob hjob'
      refine ⟨job, job', rfl, rfl, hrecord, ?_⟩
      rw [hown.all, huncut (by decide +kernel) (by decide +kernel), hview]

end Job

end Import

end Catalog
