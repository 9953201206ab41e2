/-! Sums of natural numbers. -/

namespace Catalog.Order

/-- The sum of the numbers. -/
def total : List Nat → Nat
  | [] => 0
  | n :: rest => n + total rest

theorem total_append (ns ms : List Nat) : total (ns ++ ms) = total ns + total ms := by
  induction ns with
  | nil => simp [total]
  | cons n ns ih => simp [total, ih, Nat.add_assoc]

end Catalog.Order
