import Catalog.Proofs.Text.Ascii
import Catalog.Proofs.Text.Blank
import Catalog.Proofs.Text.Lines
import Catalog.Settings.Overrides
import Mathlib.Data.List.Basic

/-! Settings written as lines and applied to others. A file is taken apart at line feeds, a line at its first
equals sign, and the blanks around a value go. So a text comes back exactly if it is on one line and has no
blanks at its ends, whatever else it holds. -/

namespace Catalog

open Catalog.Text

namespace Settings

variable {settings settings' source : Settings} {lines : List (List Char)} {line : List Char}

/-! ### Lines -/

theorem linesOf_eq_splitOn (bytes : List UInt8) : linesOf bytes = bytes.splitOn 10 := by
  induction bytes with
  | nil => rfl
  | cons byte bytes ih =>
    obtain ⟨first, parts, hparts⟩ := List.exists_cons_of_ne_nil (List.splitOn_ne_nil 10 bytes)
    rw [List.splitOn_cons_eq_if_modifyHead, linesOf, ih, hparts]
    simp

/-- A file that is text is applied line by line of the text. -/
theorem applyFile_utf8 (settings : Settings) (text : List Char) :
    settings.applyFile (utf8 text) = settings.applyLines ((text.splitOn '\n').map utf8) := by
  rw [applyFile, linesOf_eq_splitOn, splitOn_utf8]

section

variable {rest : List (List UInt8)}

theorem applyLines_of_ok (h : settings.applyLine line = .ok settings') :
    settings.applyLines (utf8 line :: rest) = settings'.applyLines rest := by
  rw [applyLines, ofBytes?_utf8]
  dsimp only
  rw [String.toList_ofList, h]

theorem applyLines_of_error {cause : OverrideError} (h : settings.applyLine line = .error cause) :
    settings.applyLines (utf8 line :: rest) = (settings, some cause) := by
  rw [applyLines, ofBytes?_utf8]
  dsimp only
  rw [String.toList_ofList, h]

end

/-- Where all lines can be applied, each of them is applied to something, and others after it. -/
theorem exists_applied (h : settings.applyLines (lines.map utf8) = (settings', none)) (hline : line ∈ lines) :
    ∃ before after : Settings, before.applyLine line = .ok after ∧
      ∃ rest ⊆ lines, after.applyLines (rest.map utf8) = (settings', none) := by
  induction lines generalizing settings with
  | nil => cases hline
  | cons first lines ih =>
    rw [List.map_cons] at h
    cases happlied : settings.applyLine first with
    | error cause =>
      rw [applyLines_of_error happlied] at h
      cases h
    | ok after =>
      rw [applyLines_of_ok happlied] at h
      rcases List.mem_cons.mp hline with rfl | hmem
      · exact ⟨settings, after, happlied, lines, List.subset_cons_self _ _, h⟩
      · obtain ⟨before, after, hafter, rest, hrest, hlines⟩ := ih h hmem
        exact ⟨before, after, hafter, rest, List.subset_cons_of_subset _ hrest, hlines⟩

/-! ### Lines of settings -/

/-- The name of a setting begins its line: it starts no comment, and nothing of it is taken for a part of
the value or goes with the blanks. -/
structure IsName (name : List Char) : Prop where
  first : name.head?.any fun c => !isBlank c && c != '#'
  trimmed : trim name = name
  undivided : '=' ∉ name
  unbroken : '\n' ∉ name

/-- The line that gives a setting a value. -/
def lineOf (name value : List Char) : List Char := name ++ '=' :: value

section

variable {name value : List Char} (hname : IsName name)
include hname

theorem IsName.exists_cons : ∃ c rest, name = c :: rest ∧ isBlank c = false ∧ c ≠ '#' := by
  have hfirst := hname.first
  cases name with
  | nil => cases hfirst
  | cons c rest => exact ⟨c, rest, rfl, by simpa using hfirst⟩

theorem trim_lineOf : trim (lineOf name value) = lineOf name (trimEnd value) := by
  obtain ⟨c, rest, rfl, hblank, -⟩ := hname.exists_cons
  have hstart : trimStart (lineOf (c :: rest) value) = lineOf (c :: rest) value :=
    List.dropWhile_cons_of_neg (by simp [hblank])
  have hequals : ('=' :: (c :: rest).reverse).dropWhile isBlank = '=' :: (c :: rest).reverse :=
    List.dropWhile_cons_of_neg (by decide)
  rw [trim, hstart, trimEnd, lineOf, List.reverse_append, List.reverse_cons, List.append_assoc,
    List.singleton_append, List.dropWhile_append, hequals]
  by_cases hempty : (value.reverse.dropWhile isBlank).isEmpty
  · rw [if_pos hempty, lineOf, trimEnd, List.isEmpty_iff.mp hempty]
    simp
  · rw [if_neg hempty, lineOf, trimEnd]
    simp

/-- The line of a setting overrides it with the value on the line, without the blanks around that. -/
theorem applyLine_lineOf (settings : Settings) :
    settings.applyLine (lineOf name value) =
      settings.override (String.ofList name) (String.ofList (trim (trimEnd value))) := by
  have hcut : cut? '=' (lineOf name (trimEnd value)) = some (name, trimEnd value) :=
    cut?_append hname.undivided _
  obtain ⟨c, rest, rfl, -, hcomment⟩ := hname.exists_cons
  rw [applyLine, trim_lineOf hname]
  split
  · rename_i heq
    cases heq
  · rename_i heq
    exact absurd (List.cons.inj heq).1 hcomment
  · rw [hcut]
    dsimp only
    rw [hname.trimmed]

end

/-- What a file gives: each setting that can be overridden by its name, with its value. -/
def assignments (settings : Settings) : List (String × String) :=
  [("METAVAULT_DB_PATH", settings.databasePath),
   ("METAVAULT_RESERVED_PREFIX", settings.flatten.reservedPrefix),
   ("METAVAULT_LOCKED_MARKER", settings.flatten.lockedMarker),
   ("METAVAULT_MAX_VALUE_LEN", String.ofList (Nat.toDigits 10 settings.flatten.maxValueLength)),
   ("METAVAULT_SIMILARITY_INDEX", settings.similarity.index.name),
   ("METAVAULT_SIMILARITY_ALGORITHM", settings.similarity.algorithm)]

theorem isName_of_mem_assignments {name value : String} (h : (name, value) ∈ source.assignments) :
    IsName name.toList := by
  have hmem : name ∈ source.assignments.map (·.1) := List.mem_map_of_mem h
  simp only [assignments, List.map_cons, List.map_nil, List.mem_cons, List.not_mem_nil, or_false] at hmem
  rcases hmem with rfl | rfl | rfl | rfl | rfl | rfl <;>
    exact ⟨by decide, by decide, by decide, by decide⟩

theorem length_mem_assignments (source : Settings) :
    ("METAVAULT_MAX_VALUE_LEN", String.ofList (Nat.toDigits 10 source.flatten.maxValueLength)) ∈
      source.assignments := by
  simp [assignments]

theorem toList_toOverrides (settings : Settings) :
    settings.toOverrides.toList =
      (settings.assignments.map fun a => lineOf a.1.toList a.2.toList).flatMap (· ++ ['\n']) := by
  -- The equation of the definition would be proved by evaluating the texts.
  delta toOverrides
  rw [show "METAVAULT_DB_PATH=" = "METAVAULT_DB_PATH" ++ "=" from rfl,
    show "METAVAULT_RESERVED_PREFIX=" = "METAVAULT_RESERVED_PREFIX" ++ "=" from rfl,
    show "METAVAULT_LOCKED_MARKER=" = "METAVAULT_LOCKED_MARKER" ++ "=" from rfl,
    show "METAVAULT_MAX_VALUE_LEN=" = "METAVAULT_MAX_VALUE_LEN" ++ "=" from rfl,
    show "METAVAULT_SIMILARITY_INDEX=" = "METAVAULT_SIMILARITY_INDEX" ++ "=" from rfl,
    show "METAVAULT_SIMILARITY_ALGORITHM=" = "METAVAULT_SIMILARITY_ALGORITHM" ++ "=" from rfl,
    assignments]
  generalize "METAVAULT_DB_PATH" = path, "METAVAULT_RESERVED_PREFIX" = reserved,
    "METAVAULT_LOCKED_MARKER" = marker, "METAVAULT_MAX_VALUE_LEN" = length,
    "METAVAULT_SIMILARITY_INDEX" = index, "METAVAULT_SIMILARITY_ALGORITHM" = algorithm
  simp [lineOf]

theorem splitOn_flatMap_lineFeed (lines : List (List Char)) :
    (lines.flatMap (· ++ ['\n'])).splitOn '\n' = lines.flatMap (·.splitOn '\n') ++ [[]] := by
  induction lines with
  | nil => rfl
  | cons line lines ih =>
    rw [List.flatMap_cons, List.flatMap_cons, List.append_assoc, List.singleton_append,
      List.splitOn_append_cons_self, ih, List.append_assoc]

/-! ### Texts that come back -/

/-- A text that a line can give: it has no line feed, and no blanks at its ends. -/
structure OnLine (text : String) : Prop where
  trimmed : Trimmed text.toList
  unbroken : '\n' ∉ text.toList

theorem OnLine.trim_trimEnd {text : String} (h : OnLine text) : trim (trimEnd text.toList) = text.toList := by
  rw [h.trimmed.trimEnd_eq, h.trimmed.trim_eq]

/-- What stands on one line is, once trimmed, a text that a line can give. -/
theorem onLine_trim {value : List Char} (h : '\n' ∉ value) : OnLine (String.ofList (trim value)) := by
  obtain ⟨-, -, -, -, -, htrimmed⟩ := exists_trim value
  refine ⟨?_, ?_⟩ <;> rw [String.toList_ofList]
  · exact htrimmed
  · exact fun hmem => h (mem_of_mem_trim hmem)

theorem onLine_digits (n : Nat) : OnLine (String.ofList (Nat.toDigits 10 n)) := by
  refine ⟨.of_forall fun c hc => ?_, fun hmem => ?_⟩
  · rw [String.toList_ofList] at hc
    exact isBlank_of_isDigit (isDigit_of_mem_toDigits hc)
  · rw [String.toList_ofList] at hmem
    exact absurd (isDigit_of_mem_toDigits hmem) (by decide)

/-- The settings that are arbitrary texts. -/
inductive TextSetting where
  | databasePath
  | reservedPrefix
  | lockedMarker
  | algorithm
deriving DecidableEq, Repr

namespace TextSetting

def get : TextSetting → Settings → String
  | databasePath, settings => settings.databasePath
  | reservedPrefix, settings => settings.flatten.reservedPrefix
  | lockedMarker, settings => settings.flatten.lockedMarker
  | algorithm, settings => settings.similarity.algorithm

def name : TextSetting → String
  | databasePath => "METAVAULT_DB_PATH"
  | reservedPrefix => "METAVAULT_RESERVED_PREFIX"
  | lockedMarker => "METAVAULT_LOCKED_MARKER"
  | algorithm => "METAVAULT_SIMILARITY_ALGORITHM"

theorem mem_assignments (setting : TextSetting) (source : Settings) :
    (setting.name, setting.get source) ∈ source.assignments := by
  cases setting <;> simp [name, get, assignments]

theorem override_name (setting : TextSetting) (settings : Settings) (value : String) :
    ∃ after, settings.override setting.name value = .ok after ∧ setting.get after = value := by
  cases setting <;> exact ⟨_, rfl, rfl⟩

theorem get_override (setting : TextSetting) {name value : String}
    (h : settings.override name value = .ok settings') :
    setting.get settings' = setting.get settings ∨ setting.get settings' = value := by
  unfold override at h
  split at h
  all_goals first
    | (cases h; cases setting <;> first | exact .inl rfl | exact .inr rfl)
    | (split at h <;> cases h; cases setting <;> exact .inl rfl)

/-- A line leaves a text as it was or gives it one that stands on a line. -/
theorem get_applyLine (setting : TextSetting) (hline : '\n' ∉ line) (h : settings.applyLine line = .ok settings') :
    setting.get settings' = setting.get settings ∨ OnLine (setting.get settings') := by
  rw [applyLine] at h
  split at h
  · cases h
    exact .inl rfl
  · cases h
    exact .inl rfl
  · split at h
    · rename_i name value hcut
      have hvalue : '\n' ∉ value := fun hmem =>
        hline (mem_of_mem_trim (append_of_cut? hcut ▸ List.mem_append_right _ (List.mem_cons_of_mem _ hmem)))
      rcases setting.get_override h with hsame | hvalues
      · exact .inl hsame
      · exact .inr (hvalues ▸ onLine_trim hvalue)
    · cases h
      exact .inl rfl

/-- So do any number of lines. -/
theorem get_applyLines (setting : TextSetting) (settings : Settings) (hlines : ∀ line ∈ lines, '\n' ∉ line) :
    setting.get (settings.applyLines (lines.map utf8)).1 = setting.get settings ∨
      OnLine (setting.get (settings.applyLines (lines.map utf8)).1) := by
  induction lines generalizing settings with
  | nil => exact .inl rfl
  | cons line lines ih =>
    obtain ⟨hline, hlines⟩ := List.forall_mem_cons.mp hlines
    rw [List.map_cons]
    cases happlied : settings.applyLine line with
    | error cause =>
      rw [applyLines_of_error happlied]
      exact .inl rfl
    | ok after =>
      rw [applyLines_of_ok happlied]
      rcases ih after hlines with hsame | honLine
      · rw [hsame]
        exact setting.get_applyLine hline happlied
      · exact .inr honLine

end TextSetting

/-- All settings that can be overridden can be given by lines. The length is a word of 64 bits. -/
structure OnLines (settings : Settings) : Prop where
  text : ∀ setting : TextSetting, OnLine (setting.get settings)
  length : settings.flatten.maxValueLength < Nat.pow 2 64

/-- The settings with what can be overridden taken from others. -/
def withOverrides (settings source : Settings) : Settings :=
  { settings with
    databasePath := source.databasePath
    flatten := { settings.flatten with
      reservedPrefix := source.flatten.reservedPrefix
      lockedMarker := source.flatten.lockedMarker
      maxValueLength := source.flatten.maxValueLength }
    similarity := { settings.similarity with
      index := source.similarity.index
      algorithm := source.similarity.algorithm } }

section

variable {given : List (String × String)}

theorem splitOn_lineOf {name : List Char} (hname : IsName name) (value : List Char) :
    (lineOf name value).splitOn '\n' = (value.splitOn '\n').modifyHead (lineOf name) := by
  have hfront : '\n' ∉ name ++ ['='] := by
    rw [List.mem_append, List.mem_singleton]
    rintro (hmem | heq)
    · exact hname.unbroken hmem
    · cases heq
  have hlineOf : lineOf name = fun value => name ++ ['='] ++ value := by
    funext value
    rw [lineOf, List.append_assoc, List.singleton_append]
  rw [hlineOf, splitOn_append_of_not_mem hfront]

/-- Lines of settings are applied as the assignments they write. -/
theorem applyLines_assignments (hnames : ∀ a ∈ given, IsName a.1.toList)
    (hvalues : ∀ a ∈ given, OnLine a.2)
    (h : given.foldlM (fun settings a => settings.override a.1 a.2) settings = .ok settings') :
    settings.applyLines ((given.map fun a => utf8 (lineOf a.1.toList a.2.toList)) ++ [utf8 []]) =
      (settings', none) := by
  induction given generalizing settings with
  | nil =>
    cases h
    exact applyLines_of_ok rfl
  | cons a given ih =>
    obtain ⟨hname, hnames⟩ := List.forall_mem_cons.mp hnames
    obtain ⟨hvalue, hvalues⟩ := List.forall_mem_cons.mp hvalues
    rw [List.foldlM_cons] at h
    cases hoverride : settings.override a.1 a.2 with
    | error cause =>
      rw [hoverride] at h
      cases h
    | ok after =>
      rw [hoverride] at h
      rw [List.map_cons, List.cons_append, applyLines_of_ok]
      · exact ih hnames hvalues h
      · rw [applyLine_lineOf hname, hvalue.trim_trimEnd, String.ofList_toList, String.ofList_toList]
        exact hoverride

end

/-- The length is a word of 64 bits. -/
theorem override_length_eq_ok_iff {n : Nat} :
    settings.override "METAVAULT_MAX_VALUE_LEN" (String.ofList (Nat.toDigits 10 n)) = .ok settings' ↔
      n < Nat.pow 2 64 ∧
        { settings with flatten := { settings.flatten with maxValueLength := n } } = settings' := by
  have hread (m : Nat) : word64? (String.ofList (Nat.toDigits 10 n)).toList = some m ↔ n = m ∧ n < Nat.pow 2 64 := by
    rw [String.toList_ofList]
    exact word64?_toDigits_eq_some_iff
  generalize String.ofList (Nat.toDigits 10 n) = value at hread ⊢
  rw [override]
  dsimp only
  cases hvalue : word64? value.toList with
  | none =>
    have hlarge : ¬n < Nat.pow 2 64 := fun h => by
      rw [(hread n).mpr ⟨rfl, h⟩] at hvalue
      cases hvalue
    simp [hlarge]
  | some m =>
    obtain ⟨rfl, hsmall⟩ := (hread m).mp hvalue
    simp only [hsmall, true_and, Except.ok.injEq]

theorem override_index (kind : Similarity.IndexKind) :
    settings.override "METAVAULT_SIMILARITY_INDEX" kind.name =
      .ok { settings with similarity := { settings.similarity with index := kind } } := by
  cases kind <;> rfl

theorem foldlM_assignments (settings : Settings) (h : source.flatten.maxValueLength < Nat.pow 2 64) :
    source.assignments.foldlM (fun settings a => settings.override a.1 a.2) settings =
      .ok (settings.withOverrides source) := by
  have hpath (settings : Settings) (value : String) :
      settings.override "METAVAULT_DB_PATH" value = .ok { settings with databasePath := value } := rfl
  have hreserved (settings : Settings) (value : String) :
      settings.override "METAVAULT_RESERVED_PREFIX" value =
        .ok { settings with flatten := { settings.flatten with reservedPrefix := value } } := rfl
  have hmarker (settings : Settings) (value : String) :
      settings.override "METAVAULT_LOCKED_MARKER" value =
        .ok { settings with flatten := { settings.flatten with lockedMarker := value } } := rfl
  have hlength (settings : Settings) :
      settings.override "METAVAULT_MAX_VALUE_LEN" (String.ofList (Nat.toDigits 10 source.flatten.maxValueLength)) =
        .ok { settings with flatten :=
          { settings.flatten with maxValueLength := source.flatten.maxValueLength } } :=
    override_length_eq_ok_iff.mpr ⟨h, rfl⟩
  have halgorithm (settings : Settings) (value : String) :
      settings.override "METAVAULT_SIMILARITY_ALGORITHM" value =
        .ok { settings with similarity := { settings.similarity with algorithm := value } } := rfl
  have hok (settings : Settings) (next : Settings → Except OverrideError Settings) :
      (Except.ok settings >>= next) = next settings := rfl
  rw [assignments]
  simp only [List.foldlM_cons, List.foldlM_nil, hpath, hreserved, hmarker, hlength, override_index,
    halgorithm, hok]
  rfl

theorem onLine_of_mem_assignments (h : source.OnLines) : ∀ a ∈ source.assignments, OnLine a.2 := by
  have hindex : OnLine source.similarity.index.name := by
    cases source.similarity.index <;> exact ⟨.of_all (by decide) (by decide), by decide⟩
  rw [assignments]
  simp only [List.forall_mem_cons, List.not_mem_nil, false_imp_iff, implies_true, and_true]
  exact ⟨h.text .databasePath, h.text .reservedPrefix, h.text .lockedMarker, onLine_digits _, hindex,
    h.text .algorithm⟩

theorem lines_toOverrides (source : Settings) :
    source.toOverrides.toList.splitOn '\n' =
      source.assignments.flatMap (fun a => (lineOf a.1.toList a.2.toList).splitOn '\n') ++ [[]] := by
  rw [toList_toOverrides, splitOn_flatMap_lineFeed, List.flatMap_map]

/-- Each setting has its line among them, up to the first line feed of its value. -/
theorem exists_line {name value : String} (h : (name, value) ∈ source.assignments) :
    ∃ first, '\n' ∉ first ∧ ('\n' ∉ value.toList → first = value.toList) ∧
      lineOf name.toList first ∈ source.toOverrides.toList.splitOn '\n' := by
  obtain ⟨first, parts, hparts⟩ := List.exists_cons_of_ne_nil (List.splitOn_ne_nil '\n' value.toList)
  refine ⟨first, not_mem_of_mem_splitOn (hparts ▸ List.mem_cons_self), fun hvalue => ?_, ?_⟩
  · rw [List.splitOn_eq_singleton hvalue] at hparts
    exact (List.cons.inj hparts).1.symm
  · rw [lines_toOverrides]
    refine List.mem_append_left _ (List.mem_flatMap.mpr ⟨_, h, ?_⟩)
    rw [splitOn_lineOf (isName_of_mem_assignments h), hparts]
    exact List.mem_cons_self

theorem applyFile_toOverrides_eq (settings source : Settings) :
    settings.applyFile (toBytes source.toOverrides) =
      settings.applyLines ((source.toOverrides.toList.splitOn '\n').map utf8) := by
  rw [← applyFile_utf8, ← toBytes_ofList, String.ofList_toList]

theorem applyFile_toOverrides (settings : Settings) (h : source.OnLines) :
    settings.applyFile (toBytes source.toOverrides) = (settings.withOverrides source, none) := by
  have hvalues := onLine_of_mem_assignments h
  have hnames : ∀ a ∈ source.assignments, IsName a.1.toList := fun a => isName_of_mem_assignments
  have hline : ∀ a ∈ source.assignments,
      (lineOf a.1.toList a.2.toList).splitOn '\n' = [lineOf a.1.toList a.2.toList] := fun a ha => by
    rw [splitOn_lineOf (hnames a ha), List.splitOn_eq_singleton (hvalues a ha).unbroken]
    rfl
  have hlines : source.toOverrides.toList.splitOn '\n' =
      (source.assignments.map fun a => lineOf a.1.toList a.2.toList) ++ [[]] := by
    rw [lines_toOverrides, List.flatMap_congr hline, List.map_eq_flatMap]
  rw [applyFile_toOverrides_eq, hlines, List.map_append, List.map_map]
  exact applyLines_assignments hnames hvalues (foldlM_assignments settings h.length)

/-- A text that comes back from its line can be given by lines: the line itself sets such a text, and the
lines behind it keep it or set another one. -/
theorem TextSetting.onLine_of_applyFile (setting : TextSetting)
    (h : settings.applyFile (toBytes source.toOverrides) = (settings.withOverrides source, none)) :
    OnLine (setting.get source) := by
  rw [applyFile_toOverrides_eq] at h
  obtain ⟨first, hfirst, -, hline⟩ := exists_line (setting.mem_assignments source)
  obtain ⟨before, after, happlied, rest, hrest, hfinal⟩ := exists_applied h hline
  have hafter : OnLine (setting.get after) := by
    obtain ⟨given, hgiven, hget⟩ := setting.override_name before (String.ofList (trim (trimEnd first)))
    rw [applyLine_lineOf (isName_of_mem_assignments (setting.mem_assignments source)),
      String.ofList_toList, hgiven] at happlied
    cases happlied
    rw [hget]
    exact onLine_trim fun hmem => hfirst (mem_of_mem_trimEnd hmem)
  have hsource : setting.get (settings.withOverrides source) = setting.get source := by
    cases setting <;> rfl
  have hkept := setting.get_applyLines after fun line hmem => not_mem_of_mem_splitOn (hrest hmem)
  rw [hfinal, hsource] at hkept
  rcases hkept with hsame | honLine
  · rw [hsame]
    exact hafter
  · exact honLine

/-- A length that is applied without an error is a word of 64 bits. -/
theorem length_lt_of_applyFile
    (h : settings.applyFile (toBytes source.toOverrides) = (settings.withOverrides source, none)) :
    source.flatten.maxValueLength < Nat.pow 2 64 := by
  rw [applyFile_toOverrides_eq] at h
  have hmem := source.length_mem_assignments
  obtain ⟨first, -, hdigits, hline⟩ := exists_line hmem
  have honLine := onLine_digits source.flatten.maxValueLength
  obtain ⟨before, after, happlied, -⟩ := exists_applied h hline
  rw [hdigits honLine.unbroken, applyLine_lineOf (isName_of_mem_assignments hmem), honLine.trim_trimEnd,
    String.ofList_toList, String.ofList_toList] at happlied
  exact (override_length_eq_ok_iff.mp happlied).1

/-- Settings written as lines and applied to others give them all that can be overridden and leave the rest,
without an error, exactly if the texts among them can be given by lines. -/
theorem applyFile_toOverrides_iff (settings source : Settings) :
    settings.applyFile (toBytes source.toOverrides) = (settings.withOverrides source, none) ↔
      source.OnLines :=
  ⟨fun h => ⟨fun setting => setting.onLine_of_applyFile h, length_lt_of_applyFile h⟩,
    applyFile_toOverrides settings⟩

example :
    ({} : Settings).applyFile (toBytes
      ({ databasePath := "#a = b\rc", flatten := { lockedMarker := "" },
         similarity := { algorithm := "'=\"" } } : Settings).toOverrides) =
      ({ databasePath := "#a = b\rc", flatten := { lockedMarker := "" },
         similarity := { algorithm := "'=\"" } }, none) := by
  decide +kernel

end Settings

end Catalog
