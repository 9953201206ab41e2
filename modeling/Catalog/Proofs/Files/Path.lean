import Catalog.Files.Path
import Catalog.Proofs.Text.Raw

/-! Paths of the entries of directories. The path of an entry leads to the directory and then to the name,
and the name can be read off it. -/

namespace Catalog.Files

open Catalog.Text

/-! ### Names -/

/-- The bytes can name an entry of a directory. -/
structure Name.Proper (name : Name) : Prop where
  notEmpty : name.bytes ≠ []
  noSlash : slash ∉ name.bytes
  noZero : 0 ∉ name.bytes
  notHere : name ≠ Name.here
  notUp : name ≠ Name.up

instance Name.Proper.decidable (name : Name) : Decidable name.Proper :=
  decidable_of_iff (name.bytes ≠ [] ∧ slash ∉ name.bytes ∧ 0 ∉ name.bytes ∧ name ≠ Name.here ∧
      name ≠ Name.up)
    ⟨fun ⟨h₁, h₂, h₃, h₄, h₅⟩ => ⟨h₁, h₂, h₃, h₄, h₅⟩, fun ⟨h₁, h₂, h₃, h₄, h₅⟩ => ⟨h₁, h₂, h₃, h₄, h₅⟩⟩

variable {name : Name}

theorem Name.split_eq_iff {stem extension : List UInt8} : name.split = (stem, some extension) ↔
    name.bytes = stem ++ point :: extension ∧ point ∉ extension ∧ stem ≠ [] := by
  rw [← and_assoc, ← cutLast?_eq_some_iff, Name.split]
  cases cutLast? point name.bytes with
  | none => simp
  | some found =>
    obtain ⟨before, after⟩ := found
    cases before with
    | nil =>
      refine iff_of_false (by simp) ?_
      rintro ⟨heq, hstem⟩
      cases heq
      exact hstem rfl
    | cons byte rest =>
      simp only [Prod.mk.injEq, Option.some.injEq]
      refine ⟨fun h => ⟨h, ?_⟩, And.left⟩
      rw [← h.1]
      exact List.cons_ne_nil _ _

namespace Path

variable {directory : Path} {s t : List UInt8}

/-! ### Pieces -/

theorem piecesOf_slash (s : List UInt8) : piecesOf (slash :: s) = [] :: piecesOf s := if_pos rfl

theorem piecesOf_ne_nil (s : List UInt8) : piecesOf s ≠ [] := by
  cases s with
  | nil => exact List.cons_ne_nil _ _
  | cons byte s =>
    rw [piecesOf]
    split
    · exact List.cons_ne_nil _ _
    · split <;> exact List.cons_ne_nil _ _

theorem piecesOf_cons {byte : UInt8} (h : byte ≠ slash) {piece : List UInt8} {pieces : List (List UInt8)}
    (hs : piecesOf s = piece :: pieces) : piecesOf (byte :: s) = (byte :: piece) :: pieces := by
  rw [piecesOf, if_neg h, hs]

theorem piecesOf_append (s t : List UInt8) :
    piecesOf (s ++ slash :: t) = piecesOf s ++ piecesOf t := by
  induction s with
  | nil => exact piecesOf_slash t
  | cons byte s ih =>
    by_cases hbyte : byte = slash
    · subst hbyte
      rw [List.cons_append, piecesOf_slash, piecesOf_slash, ih, List.cons_append]
    · obtain ⟨piece, pieces, hs⟩ := List.exists_cons_of_ne_nil (piecesOf_ne_nil s)
      rw [hs, List.cons_append] at ih
      rw [List.cons_append, piecesOf_cons hbyte ih, piecesOf_cons hbyte hs, List.cons_append]

theorem piecesOf_of_not_mem (h : slash ∉ s) : piecesOf s = [s] := by
  induction s with
  | nil => rfl
  | cons byte s ih =>
    rw [List.mem_cons, not_or] at h
    exact piecesOf_cons (Ne.symm h.1) (ih h.2)

theorem isStill_eq (h : name.Proper) : isStill name.bytes = false := by
  rw [isStill, Bool.or_eq_false_iff, List.isEmpty_eq_false_iff, beq_eq_false_iff_ne]
  exact ⟨h.notEmpty, fun hpoint => h.notHere (RawText.ext hpoint)⟩

/-! ### Entries of a directory -/

/-- The path of an entry is that of the directory, with a slash at its end, and the name. -/
theorem exists_lead (directory : Path) :
    ∃ lead, (∀ name, (join directory name).bytes = lead ++ slash :: name.bytes) ∧
      (directory.bytes = lead ∨ directory.bytes = lead ++ [slash]) := by
  by_cases hslash : [slash].isSuffixOf directory.bytes = true
  · obtain ⟨lead, hlead⟩ := List.isSuffixOf_iff_suffix.mp hslash
    refine ⟨lead, fun name => ?_, .inr hlead.symm⟩
    have hjoin : (join directory name).bytes = directory.bytes ++ name.bytes := by
      rw [join, if_pos hslash]
      rfl
    rw [hjoin, ← hlead, List.append_assoc, List.singleton_append]
  · refine ⟨directory.bytes, fun name => ?_, .inl rfl⟩
    rw [join, if_neg hslash]

theorem join_append (directory : Path) (name more : Name) :
    join directory name ++ more = join directory (name ++ more) := by
  obtain ⟨lead, hjoin, -⟩ := exists_lead directory
  rw [RawText.ext_iff, RawText.bytes_append, hjoin, hjoin, RawText.bytes_append, List.append_assoc,
    List.cons_append]

theorem names_join (h : name.Proper) : names (join directory name) = names directory ++ [name] := by
  obtain ⟨lead, hjoin, hlead⟩ := exists_lead directory
  have hdirectory : (piecesOf directory.bytes).filter (fun piece => !isStill piece) =
      (piecesOf lead).filter fun piece => !isStill piece := by
    rcases hlead with hlead | hlead
    · rw [hlead]
    · rw [hlead, piecesOf_append, List.filter_append]
      exact List.append_nil _
  rw [names, names, hjoin, piecesOf_append, piecesOf_of_not_mem h.noSlash, List.filter_append,
    hdirectory, List.map_append, List.filter_cons_of_pos (by rw [isStill_eq h]; rfl)]
  rfl

/-- A directory is meant by the dot that may stand after its names. -/
theorem steps_eq (path : Path) : steps path = names path ∨ steps path = names path ++ [Name.here] := by
  rw [steps]
  split
  · exact .inr rfl
  · exact .inl (List.append_nil _)

theorem steps_join (h : name.Proper) : steps (join directory name) = names directory ++ [name] := by
  obtain ⟨lead, hjoin, -⟩ := exists_lead directory
  have hlast : (piecesOf (join directory name).bytes).getLast? = some name.bytes := by
    rw [hjoin, piecesOf_append, piecesOf_of_not_mem h.noSlash, List.getLast?_concat]
  rw [steps, hlast, Option.getD_some, isStill_eq h, names_join h]
  exact List.append_nil _

theorem fileName?_join (h : name.Proper) : fileName? (join directory name) = some name := by
  rw [fileName?, names_join h, List.getLast?_concat, Option.filter_some, if_pos (by simpa using h.notUp)]

theorem isAbsolute_join (h : directory.bytes ≠ []) (name : Name) :
    isAbsolute (join directory name) = isAbsolute directory := by
  obtain ⟨lead, hjoin, hlead⟩ := exists_lead directory
  rw [isAbsolute, isAbsolute, hjoin]
  cases lead with
  | cons byte rest => rcases hlead with hlead | hlead <;> rw [hlead] <;> rfl
  | nil =>
    rcases hlead with hlead | hlead
    · exact absurd hlead h
    · rw [hlead]
      rfl

theorem zero_mem_join (h : name.Proper) : 0 ∈ (join directory name).bytes ↔ 0 ∈ directory.bytes := by
  have hslash : (0 : UInt8) ≠ slash := by decide
  obtain ⟨lead, hjoin, hlead⟩ := exists_lead directory
  rcases hlead with hlead | hlead <;> simp [hjoin, hlead, h.noZero, hslash]

theorem join_ne_nil (directory : Path) (name : Name) : (join directory name).bytes ≠ [] := by
  obtain ⟨lead, hjoin, -⟩ := exists_lead directory
  rw [hjoin]
  simp

/-- The path of an entry is a text if that of the directory and the name are. -/
theorem isSome_text?_join (hdirectory : directory.text?.isSome) (hname : name.text?.isSome) :
    (join directory name).text?.isSome := by
  obtain ⟨d, hd⟩ := Option.isSome_iff_exists.mp hdirectory
  obtain ⟨n, hn⟩ := Option.isSome_iff_exists.mp hname
  obtain rfl := RawText.text?_eq_some_iff.mp hd
  obtain rfl := RawText.text?_eq_some_iff.mp hn
  rw [join]
  split
  · rw [← RawText.ofText_append, RawText.text?_ofText]
    rfl
  · have hslash : (⟨(RawText.ofText d).bytes ++ slash :: (RawText.ofText n).bytes⟩ : Path) =
        RawText.ofText (d ++ ("/" ++ n)) := by
      rw [RawText.ofText_append, RawText.ofText_append]
      rfl
    rw [hslash, RawText.text?_ofText]
    rfl

/-! ### Extensions -/

variable {stem extension : List UInt8}

theorem extension?_join (h : name.Proper) :
    extension? (join directory name) = name.split.2.map RawText.mk := by
  rw [extension?, fileName?_join h, Option.bind_some]

theorem withoutExtension?_join (h : name.Proper) (hsplit : name.split = (stem, some extension)) :
    withoutExtension? (join directory name) = some (join directory ⟨stem⟩) := by
  obtain ⟨lead, hjoin, -⟩ := exists_lead directory
  have hends : beforeEnd? (point :: extension) (join directory name).bytes =
      some (join directory ⟨stem⟩).bytes := by
    rw [hjoin, hjoin, (Name.split_eq_iff.mp hsplit).1, ← List.cons_append, ← List.append_assoc]
    exact beforeEnd?_append _ _
  rw [withoutExtension?, fileName?_join h]
  simp only [hsplit, bind, Option.bind, hends, pure]

/-- An extension is a part of the last name, also where these are no texts. -/
theorem length_text_extension?_le {path extension : Path} (h : extension? path = some extension) :
    extension.text.length ≤ ((fileName? path).map RawText.text |>.getD "").length := by
  rw [extension?] at h
  obtain ⟨name, hname, hextension⟩ := Option.bind_eq_some_iff.mp h
  obtain ⟨bytes, hsplit, rfl⟩ := Option.map_eq_some_iff.mp hextension
  have hwhole : name.split = (name.split.1, some bytes) := by rw [← hsplit]
  rw [hname]
  exact RawText.length_text_le (by decide) (Name.split_eq_iff.mp hwhole).1

end Path

end Catalog.Files
