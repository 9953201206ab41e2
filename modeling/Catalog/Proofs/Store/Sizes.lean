import Catalog.Proofs.Query.WrittenSize
import Catalog.Proofs.Store.Comparison

/-! What a comparison of the size of a file finds: the order of binary64 numbers is that of the integers, so
that no size is rounded, however large it is. -/

namespace Catalog

open Catalog.Number Catalog.Query

namespace Query.Operator

/-- The relation of integers that an operator compares by. A search for a substring has none. -/
def Relates : Operator → Int → Int → Prop
  | ge, a, b => b ≤ a
  | le, a, b => a ≤ b
  | ne, a, b => a ≠ b
  | gt, a, b => b < a
  | lt, a, b => a < b
  | eq, a, b => a = b
  | like, _, _ => False
  | contains, _, _ => False

instance instDecidableRelates : (op : Operator) → (a b : Int) → Decidable (op.Relates a b)
  | ge, a, b => inferInstanceAs (Decidable (b ≤ a))
  | le, a, b => inferInstanceAs (Decidable (a ≤ b))
  | ne, a, b => inferInstanceAs (Decidable (a ≠ b))
  | gt, a, b => inferInstanceAs (Decidable (b < a))
  | lt, a, b => inferInstanceAs (Decidable (a < b))
  | eq, a, b => inferInstanceAs (Decidable (a = b))
  | like, _, _ => inferInstanceAs (Decidable False)
  | contains, _, _ => inferInstanceAs (Decidable False)

variable {op : Operator} {a b : Int}

theorem accepts_orderOf_iff : op.accepts (orderOf a b) ↔ op.Relates a b := by
  have hless : orderOf a b = .lt ↔ a < b := orderOf_eq_lt
  have hgreater : orderOf a b = .gt ↔ b < a := orderOf_eq_gt
  have hequal : orderOf a b = .eq ↔ a = b := by
    unfold orderOf
    grind
  cases op <;> simp only [accepts, Relates, bne_iff_ne, beq_iff_eq, ne_eq, hless, hgreater, hequal, not_lt,
    Bool.false_eq_true]

/-- Numbers of units are in the order of the integers. -/
theorem relates_mul_iff {unit : Nat} (hunit : 0 < unit) : op.Relates (a * unit) (b * unit) ↔ op.Relates a b := by
  have hpos : 0 < (unit : Int) := by omega
  cases op with
  | ge => exact mul_le_mul_iff_left₀ hpos
  | le => exact mul_le_mul_iff_left₀ hpos
  | gt => exact mul_lt_mul_iff_left₀ hpos
  | lt => exact mul_lt_mul_iff_left₀ hpos
  | eq => exact mul_left_inj' hpos.ne'
  | ne => exact (mul_left_inj' hpos.ne').not
  | like => exact Iff.rfl
  | contains => exact Iff.rfl

end Query.Operator

/-- A whole number, as a binary64 number, is compared with integers as it is. -/
theorem accepts_whole_iff {op : Operator} (size : Int) (n : Nat) :
    op.accepts (orderOf (size * Double.one) (Double.toInt ⟨false, n * Double.one⟩)) ↔ op.Relates size n := by
  have hvalue : Double.toInt ⟨false, n * Double.one⟩ = (n : Int) * Double.one := Int.natCast_mul _ _
  rw [hvalue, Operator.accepts_orderOf_iff, Operator.relates_mul_iff Double.unitsInOne_pos]

theorem isSubstring_of_lead {lead : Option Operator} (hlead : ∀ op ∈ lead, op ∈ leadingOperators) :
    (lead.getD .eq).isSubstring = false := by
  cases lead with
  | none => rfl
  | some op =>
    have hop := hlead op rfl
    revert hop
    cases op <;> decide

namespace Store

/-- A size that is typed as a number of units, up to 2^53 of them, finds exactly the files whose size is in the
relation of the operator to the bytes that are typed. The comparison is one of integers for every size. -/
theorem search_size_exact (store : Store) (size : WrittenSize) (h : size.number ≤ 2 ^ 53)
    (lead : Option Operator) (hlead : ∀ op ∈ lead, op ∈ leadingOperators) :
    let literal : Double := ⟨false, size.bytes * Double.one⟩
    store.predicates (size.query lead) = [⟨.file .size, lead.getD .eq, .number literal⟩] ∧
      (∀ bytes : Int, (lead.getD .eq).accepts (orderOf (bytes * Double.one) literal.toInt) ↔
        (lead.getD .eq).Relates bytes size.bytes) ∧
      ∀ limit, store.tables.files.length ≤ limit →
        (store.search (size.query lead) limit 0).files.Perm
          (store.tables.files.filter fun file => (lead.getD .eq).Relates file.size size.bytes) := by
  intro literal
  have hpredicates : store.predicates (size.query lead) = [⟨.file .size, lead.getD .eq, .number literal⟩] :=
    size.compile_query hlead h _
  refine ⟨hpredicates, fun bytes => accepts_whole_iff bytes size.bytes, fun limit hlimit => ?_⟩
  have hfiles : ∀ file : FileRecord,
      (Operand.size file.size).compares (lead.getD .eq) (.number literal) =
        decide ((lead.getD .eq).Relates file.size size.bytes) := by
    intro file
    rw [Operand.compares_size (isSubstring_of_lead hlead), Bool.eq_iff_iff, accepts_whole_iff,
      decide_eq_true_eq]
  have hperm := store.matching_perm (.file .size) (lead.getD .eq) (.number literal)
  rw [store.files_search_eq_matching _ hpredicates hlimit]
  simpa only [filesWith, FieldRef.operand?, Option.any_some, hfiles] using hperm

/-- Past 2^53 bytes a size that differs by one from the gigabytes that are typed is told apart from them. -/
theorem search_size_exact_of_gigabytes :
    let size : WrittenSize :=
      ⟨"8388608".toList, [' '], "Gb".toList, 3, by decide, by simp,
        List.forall_mem_singleton.mpr (by decide), by decide⟩
    let file (id size : Nat) : FileRecord := { (default : FileRecord) with id, size }
    let store : Store := { tables := { files := [file 1 9007199254740992, file 2 9007199254740993] } }
    (size.number ≤ 2 ^ 53 ∧ ∀ op ∈ some Operator.gt, op ∈ leadingOperators) ∧
      size.query (some .gt) = "size:>8388608 Gb" ∧
      (store.search "size:>8388608 Gb" 2 0).files.Perm
        (store.tables.files.filter fun file => Operator.gt.Relates file.size 9007199254740992) ∧
      (store.search "size:>8388608 Gb" 2 0).files = [file 2 9007199254740993] := by
  intro size file store
  have hsmall : size.number ≤ 2 ^ 53 := by decide +kernel
  have hlead : ∀ op ∈ some Operator.gt, op ∈ leadingOperators := by decide
  have hquery : size.query (some .gt) = "size:>8388608 Gb" := by decide +kernel
  obtain ⟨-, -, hfound⟩ := store.search_size_exact size hsmall (some .gt) hlead
  refine ⟨⟨hsmall, hlead⟩, hquery, ?_, by decide +kernel⟩
  have hfiles := hfound 2 (by decide)
  rw [hquery] at hfiles
  have hbytes : (size.bytes : Int) = 9007199254740992 := by decide +kernel
  rwa [hbytes] at hfiles

end Store

end Catalog
