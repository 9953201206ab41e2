import Catalog.Query.Compile

/-! How deep the condition of a query nests. Predicates are joined one after the other, each join one
level above what it joins, and a condition of more than a thousand levels cannot be evaluated. -/

namespace Catalog.Query

/-- The most levels of a condition that can be evaluated. -/
def mostLevels : Nat := 1000

namespace FieldRef

/-- The property is a field. -/
def isField : FieldRef → Bool
  | .field _ => true
  | .file _ => false

/-- The levels of the property as text: its name below the thing that has it, and a conversion on top
if it is a size. -/
def textLevels : FieldRef → Nat
  | .file .size => 3
  | _ => 2

/-- The levels of the property as a number: text is read as one on top. -/
def numberLevels : FieldRef → Nat
  | .file .size => 2
  | _ => 3

end FieldRef

/-- The levels of the condition under which a field is looked up: the file, the category and the key
are compared before the value. -/
def lookupLevels : Nat := 6

namespace Predicate

/-- The predicate is about a field. -/
def readsFields (predicate : Predicate) : Bool := predicate.field.isField

/-- The predicate compares numbers. -/
def isNumeric (predicate : Predicate) : Bool :=
  match predicate.literal with
  | .number _ => predicate.op.isOrdering || predicate.field = .file .size
  | _ => false

/-- The levels of the comparison. A substring is looked for in small letters: the letters are changed,
the place is found, and it is compared with none. -/
def comparisonLevels (predicate : Predicate) : Nat :=
  if predicate.op.isSubstring then predicate.field.textLevels + 3
  else if predicate.isNumeric then predicate.field.numberLevels + 1
  else predicate.field.textLevels + 1

/-- The levels of the predicate. -/
def levels (predicate : Predicate) : Nat :=
  if predicate.readsFields then lookupLevels + 1 else predicate.comparisonLevels

end Predicate

/-- The levels of predicates joined from the left. -/
def joinedLevels : List Predicate → Nat
  | [] => 0
  | first :: rest => rest.foldl (fun levels predicate => max levels predicate.levels + 1) first.levels

/-- The predicates can be evaluated together. The conditions under which fields are looked up count
again on top of the whole. -/
def isEvaluable (predicates : List Predicate) : Bool :=
  let lookup := if predicates.any Predicate.readsFields then lookupLevels else 0
  joinedLevels predicates + lookup ≤ mostLevels

end Catalog.Query
