import Catalog.Query.Depth
import Catalog.Store.Tables

/-! Which files a query selects. Text is compared by code points, numbers exactly; a substring is looked
for without regard to the case of ASCII letters. -/

namespace Catalog

open Catalog.Number Catalog.Order Catalog.Query Catalog.Text

/-- What a predicate compares with its literal. -/
inductive Operand where
  | size (bytes : Nat)
  | text (value : String)
deriving DecidableEq, Repr

namespace Operand

/-- The operand as text. -/
def toText : Operand → String
  | size bytes => String.ofList (Nat.toDigits 10 bytes)
  | text value => value

/-- The operand as a number in units of a binary64 number; text that is no finite number has none. -/
def units? : Operand → Option Int
  | size bytes => some ((bytes : Int) * Double.one)
  | text value => (Double.read? (trim value.toList)).map Double.toInt

end Operand

/-- How two values of an ordered type compare. -/
def orderOf {α : Type} [LT α] [DecidableLT α] [DecidableEq α] (a b : α) : Ordering :=
  if a < b then .lt else if a = b then .eq else .gt

namespace Query.Operator

/-- The operator, other than a search for a substring, holds of values that compare so. -/
def accepts : Operator → Ordering → Bool
  | ge, o => o != .lt
  | le, o => o != .gt
  | ne, o => o != .eq
  | gt, o => o == .gt
  | lt, o => o == .lt
  | eq, o => o == .eq
  | like, _ => false
  | contains, _ => false

end Query.Operator

/-- An operand compared with a literal. Equality with a number is one of numbers for sizes and one of
texts otherwise; order with a number is one of numbers, and no text that is none takes part in it. -/
def Operand.compares (operand : Operand) (op : Operator) (literal : Literal) : Bool :=
  let byText : Bool := op.accepts (orderOf operand.toText literal.canonical)
  if op.isSubstring then
    occursIn (lower literal.canonical.toList) (lower operand.toText.toList)
  else
    match literal with
    | .number value =>
      match operand with
      | .size bytes => op.accepts (orderOf ((bytes : Int) * Double.one) value.toInt)
      | .text _ =>
        if op.isOrdering then
          match operand.units? with
          | some units => op.accepts (orderOf units value.toInt)
          | none => false
        else byText
    | _ => byText

/-- The operand that a predicate compares, if the file has it. -/
def Query.FieldRef.operand? (field : FieldRef) (file : FileRecord) (fields : FieldMap) :
    Option Operand :=
  match field with
  | .file .path => some (.text file.path)
  | .file .size => some (.size file.size)
  | .file .type => some (.text file.type)
  | .field key => (get? key fields).map .text

/-- The predicate holds of a file with the given fields. A field that the file does not have compares
with nothing. -/
def Query.Predicate.holds (predicate : Predicate) (file : FileRecord) (fields : FieldMap) : Bool :=
  (predicate.field.operand? file fields).any fun operand =>
    operand.compares predicate.op predicate.literal

namespace FileRecord

/-- The order of results: the last updated first, of one time the file with the larger id. -/
def precedes (a b : FileRecord) : Bool :=
  b.lastUpdated < a.lastUpdated || a.lastUpdated == b.lastUpdated && b.id ≤ a.id

end FileRecord

namespace Tables

/-- All predicates hold of a file. -/
def satisfies (tables : Tables) (predicates : List Predicate) (file : FileRecord) : Bool :=
  let fields := tables.fieldsOf file.id
  predicates.all fun predicate => predicate.holds file fields

/-- The predicates can be asked of the tables: there are some, they can be evaluated together, and the
table of fields is there if they are about fields. -/
def answers (tables : Tables) (predicates : List Predicate) : Bool :=
  !predicates.isEmpty && isEvaluable predicates &&
    (tables.fields.isSome || !predicates.any Predicate.readsFields)

/-- The files of which all predicates hold, in the order of results. Predicates that cannot be asked
find nothing. -/
def select (tables : Tables) (predicates : List Predicate) : List FileRecord :=
  if !tables.answers predicates then []
  else sortBy FileRecord.precedes (tables.files.filter (tables.satisfies predicates))

end Tables

/-- Files found by a query, and how much of the query was understood. -/
structure SearchResults where
  files : List FileRecord
  parsedClauses : Nat
  droppedClauses : Nat
deriving DecidableEq, Repr, Inhabited

end Catalog
