import Catalog.Proofs.Text.Slice

/-! Parts of a list between separators, and the lines of a text: what stands between the line feeds of its
bytes is what stands between its line feeds. -/

namespace Catalog.Text

section SplitOn

variable {α : Type} [BEq α] [LawfulBEq α] {a : α}

/-- What stands in front of the first separator begins the first part. -/
theorem splitOn_append_of_not_mem {front : List α} (h : a ∉ front) (s : List α) :
    (front ++ s).splitOn a = (s.splitOn a).modifyHead (front ++ ·) := by
  induction front with
  | nil => exact (congrFun List.modifyHead_id _).symm
  | cons x front ih =>
    rw [List.mem_cons, not_or] at h
    rw [List.cons_append, List.splitOn_cons_eq_if_modifyHead, if_neg (by simpa using Ne.symm h.1),
      ih h.2, List.modifyHead_modifyHead]
    rfl

theorem not_mem_of_mem_splitOn {part s : List α} (h : part ∈ s.splitOn a) : a ∉ part := by
  induction s generalizing part with
  | nil =>
    rw [List.splitOn_nil, List.mem_singleton] at h
    exact h ▸ List.not_mem_nil
  | cons x s ih =>
    rw [List.splitOn_cons_eq_if_modifyHead] at h
    obtain ⟨first, parts, hparts⟩ := List.exists_cons_of_ne_nil (List.splitOn_ne_nil a s)
    rw [hparts] at h ih
    split at h
    · rcases List.mem_cons.mp h with rfl | h
      · exact List.not_mem_nil
      · exact ih h
    · rename_i hx
      rw [List.modifyHead_cons] at h
      rcases List.mem_cons.mp h with rfl | h
      · rw [List.mem_cons, not_or]
        exact ⟨fun ha => hx (beq_iff_eq.mpr ha.symm), ih List.mem_cons_self⟩
      · exact ih (List.mem_cons_of_mem _ h)

end SplitOn

theorem utf8_cons (c : Char) (s : List Char) : utf8 (c :: s) = String.utf8EncodeChar c ++ utf8 s := rfl

theorem lineFeed_not_mem_utf8EncodeChar {c : Char} (h : c ≠ '\n') : 10 ∉ String.utf8EncodeChar c := by
  intro hmem
  rcases toNat_of_mem_utf8EncodeChar hmem with hsame | ⟨-, hlarge⟩
  · exact h (Char.ext (UInt32.toNat_inj.mp hsame.symm))
  · exact absurd hlarge (by decide)

/-- Cutting the bytes of a text at line feeds cuts the text. -/
theorem splitOn_utf8 (s : List Char) : (utf8 s).splitOn 10 = (s.splitOn '\n').map utf8 := by
  induction s with
  | nil => rfl
  | cons c s ih =>
    rw [utf8_cons, List.splitOn_cons_eq_if_modifyHead]
    by_cases hc : c = '\n'
    · subst hc
      rw [if_pos (beq_self_eq_true _), List.map_cons, ← ih]
      exact List.splitOn_append_cons_self [] (utf8 s)
    · rw [if_neg (by simpa using hc), splitOn_append_of_not_mem (lineFeed_not_mem_utf8EncodeChar hc), ih]
      cases s.splitOn '\n' <;> rfl

/-- The bytes of a text spell it. -/
theorem ofBytes?_utf8 (s : List Char) : ofBytes? (utf8 s) = some (String.ofList s) := by
  have hbytes : (⟨(utf8 s).toArray⟩ : ByteArray) = (String.ofList s).toByteArray := by
    rw [← toBytes_ofList, toBytes]
    rfl
  rw [ofBytes?, hbytes, String.fromUTF8?, dif_pos (String.ofList s).isValidUTF8]
  rfl

end Catalog.Text
