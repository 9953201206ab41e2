import Catalog.Query.Quotes
import Catalog.Text.Ascii
import Catalog.Text.Utf8

/-! Operators, and the one that splits a clause into a name and a value. -/

namespace Catalog.Query

open Catalog.Text

/-- The comparisons of the language. -/
inductive Operator where
  | ge | le | ne | gt | lt | eq | like | contains
deriving DecidableEq, Repr, Inhabited

namespace Operator

/-- All operators in the order in which they are looked for: `>=` is found before `>` and `=`. -/
def all : List Operator := [ge, le, ne, gt, lt, eq, like, contains]

/-- How the operator is written. -/
def symbol : Operator → List Char
  | ge => ['>', '=']
  | le => ['<', '=']
  | ne => ['!', '=']
  | gt => ['>']
  | lt => ['<']
  | eq => ['=']
  | like => ['L', 'I', 'K', 'E']
  | contains => ['C', 'O', 'N', 'T', 'A', 'I', 'N', 'S']

/-- The operator is a word, which needs blanks around it and may be written in any case. -/
def isWord : Operator → Bool
  | like => true
  | contains => true
  | _ => false

/-- The operator compares by order. -/
def isOrdering : Operator → Bool
  | ge => true
  | le => true
  | gt => true
  | lt => true
  | _ => false

/-- The operator looks for a piece of text. -/
def isSubstring : Operator → Bool
  | like => true
  | contains => true
  | _ => false

/-- The text begins with the operator. Before the text stands `before`, if anything. -/
def standsAt (op : Operator) (before : Option Char) (text : List Char) : Bool :=
  if op.isWord then
    upper (text.take op.symbol.length) == op.symbol &&
      before.any isAsciiBlank && (text.drop op.symbol.length).head?.any isAsciiBlank
  else op.symbol.isPrefixOf text

/-- The text before the leftmost place, outside quoted sections, where the operator stands. The
characters of the operator and one more decide. -/
def findFrom? (op : Operator) (before : Option Char) : List (Char × Bool) → Option (List Char)
  | [] => none
  | (c, quoted) :: rest =>
    if !quoted && op.standsAt before (c :: (rest.take op.symbol.length).map (·.1)) then some []
    else (findFrom? op (some c) rest).map (c :: ·)

end Operator

/-- A clause split at its operator. -/
structure Split where
  left : List Char
  op : Operator
  right : List Char
deriving DecidableEq, Repr

namespace Split

/-- Splits a clause at the first operator of the list that it holds outside quoted sections, at the
leftmost place. -/
def ofClause? (clause : List Char) : Option Split :=
  Operator.all.findSome? fun op =>
    (op.findFrom? none (marked clause)).map fun left =>
      ⟨left, op, clause.drop (left.length + op.symbol.length)⟩

/-- The bytes before the operator. -/
def start (split : Split) : Nat := byteLength split.left

/-- The bytes up to the end of the operator. -/
def stop (split : Split) : Nat := split.start + byteLength split.op.symbol

end Split

end Catalog.Query
