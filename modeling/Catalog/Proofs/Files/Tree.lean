import Catalog.Files.Tree
import Catalog.Proofs.Files.Path
import Catalog.Proofs.Order.Keyed

/-! Trees and the paths into them. What a directory holds is what paths through it lead to, however many
links lie on the way to the directory. -/

namespace Catalog.Files

open Catalog.Order

/-- What is in an entry, if it is a file. -/
def Entry.content? : Entry → Option Content
  | file content _ => some content
  | _ => none

/-- The bytes can be read. -/
def Content.isSound : Content → Bool
  | sound _ => true
  | broken _ _ _ => false

namespace FileTree

/-- Each place has one entry, under a name. -/
structure WellFormed (tree : FileTree) : Prop where
  nodup : (tree.entries.map (·.1)).Nodup
  names : ∀ e ∈ tree.entries, ∀ name ∈ e.1.getLast?, name.Proper

instance WellFormed.decidable (tree : FileTree) : Decidable tree.WellFormed :=
  decidable_of_iff ((tree.entries.map (·.1)).Nodup ∧
      ∀ e ∈ tree.entries, ∀ name ∈ e.1.getLast?, name.Proper)
    ⟨fun h => ⟨h.1, h.2⟩, fun h => ⟨h.nodup, h.names⟩⟩

/-- The bytes of all files can be read. -/
def Readable (tree : FileTree) : Prop :=
  ∀ e ∈ tree.entries, ∀ content ∈ e.2.content?, content.isSound = true

instance Readable.decidable (tree : FileTree) : Decidable tree.Readable :=
  inferInstanceAs (Decidable (∀ e ∈ tree.entries, ∀ content ∈ e.2.content?, content.isSound = true))

variable {tree : FileTree} {location place : Location} {name : Name} {entry : Entry}
  {barred : Bool} {steps rest : List Name}

/-! ### Entries -/

theorem at?_append (h : name.Proper) :
    tree.at? (location ++ [name]) = get? (location ++ [name]) tree.entries := by
  have hbelow : isAtTop (location ++ [name]) = false := by
    rw [isAtTop, List.all_eq_false]
    exact ⟨name, by simp, by simpa using h.notUp⟩
  rw [at?, hbelow]
  rfl

theorem mem_children_iff (h : tree.WellFormed) :
    (name, entry) ∈ tree.children location ↔
      name.Proper ∧ tree.at? (location ++ [name]) = some entry := by
  rw [children, List.mem_filterMap]
  constructor
  · rintro ⟨⟨place, found⟩, hmem, hchild⟩
    dsimp only at hchild
    cases hlast : place.getLast? with
    | none => rw [hlast] at hchild; cases hchild
    | some last =>
      rw [hlast] at hchild
      dsimp only at hchild
      split at hchild
      · rename_i hdirectory
        cases hchild
        have hname := h.names _ hmem name (Option.mem_def.mpr hlast)
        have hplace : location ++ [name] = place := by
          rw [← hdirectory]
          exact List.dropLast_append_getLast? name (Option.mem_def.mpr hlast)
        rw [at?_append hname, hplace]
        exact ⟨hname, get?_of_mem h.nodup hmem⟩
      · cases hchild
  · rintro ⟨hname, hentry⟩
    rw [at?_append hname] at hentry
    exact ⟨_, mem_of_get? hentry, by simp⟩

/-! ### Steps -/

section Steps

variable {follow : Location → List Name → Except FileError Location}

theorem resolveSteps_here : tree.resolveSteps follow location (Name.here :: rest) =
    tree.resolveSteps follow location rest := if_pos rfl

theorem resolveSteps_up : tree.resolveSteps follow location (Name.up :: rest) =
    tree.resolveSteps follow (outer location) rest := by
  rw [resolveSteps, if_neg (by decide), if_pos rfl]

theorem resolveSteps_name (hhere : name ≠ Name.here) (hup : name ≠ Name.up) :
    tree.resolveSteps follow location (name :: rest) =
      match tree.at? (location ++ [name]) with
      | none => .error .missing
      | some (.directory _) => tree.resolveSteps follow (location ++ [name]) rest
      | some (.file _ _) => if rest.isEmpty then .ok (location ++ [name]) else .error .notDirectory
      | some (.link target) =>
        if target.isAbsolute then .error .missing else follow location (target.steps ++ rest) :=
  (if_neg hhere).trans (if_neg hup)

/-- A dot on the way leads nowhere. -/
theorem resolveSteps_dot (hfollow : ∀ location steps, rest ≠ [] →
      follow location (steps ++ Name.here :: rest) = follow location (steps ++ rest)) (hrest : rest ≠ []) :
    tree.resolveSteps follow location (steps ++ Name.here :: rest) =
      tree.resolveSteps follow location (steps ++ rest) := by
  induction steps generalizing location with
  | nil => exact resolveSteps_here
  | cons step steps ih =>
    rw [List.cons_append, List.cons_append]
    by_cases hhere : step = Name.here
    · rw [hhere, resolveSteps_here, resolveSteps_here, ih]
    · by_cases hup : step = Name.up
      · rw [hup, resolveSteps_up, resolveSteps_up, ih]
      · rw [resolveSteps_name hhere hup, resolveSteps_name hhere hup]
        cases tree.at? (location ++ [step]) with
        | none => rfl
        | some entry =>
          cases entry with
          | directory => exact ih
          | file content modified => cases steps <;> simp [hrest]
          | link target =>
            dsimp only
            rw [← List.append_assoc, ← List.append_assoc, hfollow _ _ hrest]

/-- Where a way leads to a directory, the way on from there is one from that directory. -/
theorem resolveSteps_append_name
    (hfollow : ∀ start steps, follow start steps = .ok location →
      ∃ left, ∀ name, follow start (steps ++ [name]) = tree.resolveWithin left location [name])
    (hself : ∃ left, ∀ name, tree.resolveSteps follow location [name] =
      tree.resolveWithin left location [name])
    (hdirectory : tree.at? location = some (.directory barred))
    (h : tree.resolveSteps follow place steps = .ok location) :
    ∃ left, ∀ name, tree.resolveSteps follow place (steps ++ [name]) =
      tree.resolveWithin left location [name] := by
  induction steps generalizing place with
  | nil =>
    obtain rfl : place = location := Except.ok.inj h
    exact hself
  | cons step steps ih =>
    by_cases hhere : step = Name.here
    · subst hhere
      simp only [List.cons_append, resolveSteps_here] at h ⊢
      exact ih h
    · by_cases hup : step = Name.up
      · subst hup
        simp only [List.cons_append, resolveSteps_up] at h ⊢
        exact ih h
      · rw [resolveSteps_name hhere hup] at h
        simp only [List.cons_append, resolveSteps_name hhere hup]
        cases hentry : tree.at? (place ++ [step]) with
        | none => rw [hentry] at h; cases h
        | some entry =>
          rw [hentry] at h
          cases entry with
          | directory => exact ih h
          | file content modified =>
            -- A file is no directory, so that the way does not end here.
            dsimp only at h
            split at h
            · rw [Except.ok.inj h, hdirectory] at hentry
              cases hentry
            · cases h
          | link target =>
            dsimp only at h ⊢
            split at h
            · cases h
            · rename_i hrelative
              obtain ⟨left, hleft⟩ := hfollow _ _ h
              refine ⟨left, fun name => ?_⟩
              rw [if_neg hrelative, ← List.append_assoc, hleft]

end Steps

/-! ### Ways over links -/

theorem resolveWithin_dot (links : Nat) (hrest : rest ≠ []) :
    tree.resolveWithin links location (steps ++ Name.here :: rest) =
      tree.resolveWithin links location (steps ++ rest) := by
  induction links generalizing location steps rest with
  | zero => exact resolveSteps_dot (fun _ _ _ => rfl) hrest
  | succ links ih => exact resolveSteps_dot (fun _ _ hother => ih hother) hrest

theorem resolveWithin_append_name {links : Nat} (hdirectory : tree.at? location = some (.directory barred))
    (h : tree.resolveWithin links place steps = .ok location) :
    ∃ left, ∀ name, tree.resolveWithin links place (steps ++ [name]) =
      tree.resolveWithin left location [name] := by
  induction links generalizing place steps with
  | zero =>
    refine resolveSteps_append_name (fun start steps hfollow => ?_) ⟨0, fun _ => rfl⟩ hdirectory h
    cases hfollow
  | succ links ih =>
    exact resolveSteps_append_name (fun start steps hfollow => ih hfollow) ⟨links + 1, fun _ => rfl⟩
      hdirectory h

/-- What stands in a directory is reached without a link. -/
theorem resolveWithin_name (left : Nat) (hname : name.Proper)
    (hlink : ∀ target, tree.at? (location ++ [name]) ≠ some (.link target)) :
    tree.resolveWithin left location [name] =
      if (tree.at? (location ++ [name])).isSome then .ok (location ++ [name]) else .error .missing := by
  have hstep : ∀ follow, tree.resolveSteps follow location [name] =
      if (tree.at? (location ++ [name])).isSome then .ok (location ++ [name]) else .error .missing := by
    intro follow
    rw [resolveSteps_name hname.notHere hname.notUp]
    cases hentry : tree.at? (location ++ [name]) with
    | none => rfl
    | some entry =>
      cases entry with
      | directory => rfl
      | file content modified => rfl
      | link target => exact absurd hentry (hlink target)
  cases left with
  | zero => exact hstep _
  | succ left => exact hstep _

/-! ### Paths -/

variable {path : Path}

theorem resolve_eq_ok_iff : tree.resolve path = .ok location ↔
    0 ∉ path.bytes ∧ path.bytes ≠ [] ∧ path.isAbsolute = false ∧
      tree.resolveWithin mostLinks [] path.steps = .ok location := by
  unfold resolve
  split
  · rename_i hzero
    exact iff_of_false (by simp) fun h => h.1 (by simpa using hzero)
  · rename_i hzero
    split
    · rename_i hbad
      refine iff_of_false (by simp) fun h => ?_
      simp [h.2.1, h.2.2.1] at hbad
    · rename_i hgood
      simp only [Bool.or_eq_true, List.isEmpty_iff, not_or, Bool.not_eq_true] at hgood
      simp only [List.contains_eq_mem, decide_eq_true_eq] at hzero
      simp [hzero, hgood]

/-- The way to an entry of a directory that a path leads to is one from that directory. -/
theorem resolve_join (h : tree.resolve path = .ok location)
    (hdirectory : tree.at? location = some (.directory barred)) :
    ∃ left, ∀ name, name.Proper →
      tree.resolve (path.join name) = tree.resolveWithin left location [name] := by
  obtain ⟨hzero, hempty, hrelative, hsteps⟩ := resolve_eq_ok_iff.mp h
  have hpath : ∃ left, ∀ name, tree.resolveWithin mostLinks [] (path.names ++ [name]) =
      tree.resolveWithin left location [name] := by
    rcases path.steps_eq with hend | hend
    · rw [hend] at hsteps
      exact resolveWithin_append_name hdirectory hsteps
    · rw [hend] at hsteps
      obtain ⟨left, hleft⟩ := resolveWithin_append_name hdirectory hsteps
      refine ⟨left, fun name => ?_⟩
      rw [← hleft, List.append_assoc]
      exact (resolveWithin_dot mostLinks (List.cons_ne_nil _ _)).symm
  obtain ⟨left, hleft⟩ := hpath
  refine ⟨left, fun name hname => ?_⟩
  have hzero' : 0 ∉ (path.join name).bytes := by rwa [Path.zero_mem_join hname]
  have hempty' := Path.join_ne_nil path name
  have hrelative' : (path.join name).isAbsolute = false := by rwa [Path.isAbsolute_join hempty]
  rw [resolve, if_neg (by simpa using hzero'), hrelative', if_neg (by simpa using hempty'),
    Path.steps_join hname, hleft]

theorem isFile_iff : tree.isFile path = true ↔
    ∃ place content modified, tree.resolve path = .ok place ∧
      tree.at? place = some (.file content modified) := by
  unfold isFile stat
  cases hresolve : tree.resolve path with
  | error cause => simp [Except.bind]
  | ok place =>
    cases hentry : tree.at? place with
    | none => simp [Except.bind, hentry]
    | some entry => cases entry <;> simp [Except.bind, hentry]

theorem exists_stat (h : tree.isFile path = true) :
    ∃ content modified, tree.stat path = .ok (.file content modified) := by
  unfold isFile at h
  split at h
  · exact ⟨_, _, ‹_›⟩
  · cases h

theorem exists_mem_of_stat {content : Content} {modified : Int}
    (h : tree.stat path = .ok (.file content modified)) :
    ∃ place, (place, .file content modified) ∈ tree.entries := by
  unfold stat at h
  cases hresolve : tree.resolve path with
  | error cause => rw [hresolve] at h; cases h
  | ok place =>
    rw [hresolve] at h
    cases hentry : tree.at? place with
    | none => simp [Except.bind, hentry] at h
    | some entry =>
      obtain rfl : entry = .file content modified := by simpa [Except.bind, hentry] using h
      rw [at?] at hentry
      split at hentry
      · cases hentry
      · exact ⟨place, mem_of_get? hentry⟩

theorem Readable.exists_stat (h : tree.Readable) (hfile : tree.isFile path = true) :
    ∃ bytes modified, tree.stat path = .ok (.file (.sound bytes) modified) := by
  obtain ⟨content, modified, hstat⟩ := FileTree.exists_stat hfile
  obtain ⟨place, hmem⟩ := exists_mem_of_stat hstat
  have hsound := h _ hmem content rfl
  cases content with
  | sound bytes => exact ⟨bytes, modified, hstat⟩
  | broken bytes lost cause => cases hsound

theorem isDirectory_iff : tree.isDirectory path = true ↔
    ∃ place barred, tree.resolve path = .ok place ∧ tree.at? place = some (.directory barred) := by
  unfold isDirectory stat
  cases hresolve : tree.resolve path with
  | error cause => simp [Except.bind]
  | ok place =>
    cases hentry : tree.at? place with
    | none => simp [Except.bind, hentry]
    | some entry => cases entry <;> simp [Except.bind, hentry]

end FileTree

end Catalog.Files
