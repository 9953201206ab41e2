import Catalog.Number.WrittenForm
import Catalog.Text.Blank
import Catalog.Text.Search

/-! Literals: the values that clauses compare with. -/

namespace Catalog.Query

open Catalog.Number Catalog.Text

/-- The value of a clause. -/
inductive Literal where
  | number (value : Double)
  | bool (value : Bool)
  | text (value : String)
deriving DecidableEq, Repr, Inhabited

/-- The text without one pair of equal quotes around it. -/
def stripQuotes (s : List Char) : List Char :=
  match s with
  | '"' :: rest => if rest.getLast? = some '"' then rest.dropLast else s
  | '\'' :: rest => if rest.getLast? = some '\'' then rest.dropLast else s
  | _ => s

/-- The truth value that a word names in any ASCII case. -/
def truth? (s : List Char) : Option Bool :=
  if sameLetters s "true".toList || sameLetters s "yes".toList then some true
  else if sameLetters s "false".toList || sameLetters s "no".toList then some false
  else none

/-- The factor below which whole numbers are written as integers. -/
def integerBound : Nat := Nat.pow 10 15

namespace Literal

/-- The literal of a text taken as it is, without quotes around it. -/
def verbatim (s : List Char) : Literal := .text (String.ofList (stripQuotes s))

/-- Reads a literal: a finite number, a truth value, or else text. -/
def read (s : List Char) : Literal :=
  let s := trim s
  match Double.read? s with
  | some value => .number value
  | none =>
    match truth? s with
    | some value => .bool value
    | none => verbatim s

/-- The number as text: whole numbers below the bound as integers, without a sign at zero. -/
def numberText (value : Double) : List Char :=
  if value.isWhole ∧ value.units < integerBound * Double.one then
    integerText (value.toInt / Double.one)
  else plain.write value

/-- The text that stored values are compared with. -/
def canonical : Literal → String
  | .number value => String.ofList (numberText value)
  | .bool true => "true"
  | .bool false => "false"
  | .text value => value

/-- The literal is the empty text. -/
def isEmpty : Literal → Bool
  | .text value => value.toList.isEmpty
  | _ => false

end Literal

/-- The units in which sizes are written, with the power of 1024 that each stands for. The longer
ones come first, since all of them end like the last. -/
def sizeUnits : List (List Char × Nat) :=
  [(['G', 'B'], 3), (['M', 'B'], 2), (['K', 'B'], 1), (['B'], 0)]

/-- Reads a number of bytes with an optional unit in any case. The number must be finite and not
negative; its product with the unit is rounded like any other, and so may be infinite. -/
def size? (s : List Char) : Option Double :=
  let s := upper (trim s)
  let (digits, power) :=
    (sizeUnits.findSome? fun (unit, power) =>
      (beforeEnd? unit s).map fun digits => (trim digits, power)).getD (s, 0)
  ((Double.read? digits).filter fun value => !value.negative || value.units == 0).map fun value =>
    value.mul (Double.ofRatio false (Nat.pow 1024 power) 1)

end Catalog.Query
