import Catalog.Text.Ascii
import Catalog.Text.Hex

/-! The grammar of JSON text. A text is read into a tree that keeps what the text says: members of
objects in their order with repeated names, numbers as their digits, and strings as the code units
that their escapes name, which need not form characters. -/

namespace Catalog.Json

open Catalog.Text

/-- A number as it is written. -/
structure Numeral where
  negative : Bool
  whole : List Char
  fraction : List Char
  /-- The sign (whether negative) and digits after the exponent mark. -/
  exponent : Option (Bool × List Char)
deriving DecidableEq, Repr

/-- A string as it is written: code points, and surrogates where an escape names one. -/
abbrev Quoted := List Nat

/-- A JSON text as a tree. -/
inductive Syntax where
  | null
  | bool (value : Bool)
  | number (numeral : Numeral)
  | string (units : Quoted)
  | array (items : List Syntax)
  | object (members : List (Quoted × Syntax))
deriving Inhabited

mutual

/-- The number of arrays and objects around the innermost one, itself counted. -/
def Syntax.depth : Syntax → Nat
  | .array items => itemsDepth items + 1
  | .object members => membersDepth members + 1
  | _ => 0

/-- The greatest depth among items. -/
def itemsDepth : List Syntax → Nat
  | [] => 0
  | item :: rest => max item.depth (itemsDepth rest)

/-- The greatest depth among values of members. -/
def membersDepth : List (Quoted × Syntax) → Nat
  | [] => 0
  | (_, value) :: rest => max value.depth (membersDepth rest)

end

namespace Reader

/-- Space, tab, line feed and carriage return separate tokens. -/
def isSpace (c : Char) : Bool := c == ' ' || c == '\t' || c == '\n' || c == '\r'

/-- The text from its next token on. -/
def skip (s : List Char) : List Char := s.dropWhile isSpace

/-- The character that a backslash and a letter stand for. -/
def escaped? : Char → Option Char
  | '"' => some '"'
  | '\\' => some '\\'
  | '/' => some '/'
  | 'b' => some '\x08'
  | 'f' => some '\x0c'
  | 'n' => some '\n'
  | 'r' => some '\r'
  | 't' => some '\t'
  | _ => none

/-- Reads a string after its opening quote, up to and with the closing one. -/
def string? : List Char → Option (Quoted × List Char)
  | [] => none
  | '"' :: rest => some ([], rest)
  | '\\' :: 'u' :: a :: b :: c :: d :: rest => do
    let a ← hexValue? a
    let b ← hexValue? b
    let c ← hexValue? c
    let d ← hexValue? d
    let (units, rest) ← string? rest
    pure ((((16 * a + b) * 16 + c) * 16 + d) :: units, rest)
  | '\\' :: c :: rest => do
    let c ← escaped? c
    let (units, rest) ← string? rest
    pure (c.toNat :: units, rest)
  | c :: rest =>
    if c.toNat < 0x20 || c == '\\' then none
    else (string? rest).map fun (units, rest) => (c.toNat :: units, rest)

/-- Reads a run of at least one digit. -/
def digits? (s : List Char) : Option (List Char × List Char) :=
  match s.takeWhile Char.isDigit with
  | [] => none
  | digits => some (digits, s.dropWhile Char.isDigit)

/-- Reads the exponent of a number, if the text goes on with one. -/
def exponent? (s : List Char) : Option (Option (Bool × List Char) × List Char) :=
  match s with
  | c :: rest =>
    if c == 'e' || c == 'E' then
      let (negative, rest) := match rest with
        | '-' :: rest => (true, rest)
        | '+' :: rest => (false, rest)
        | _ => (false, rest)
      (digits? rest).map fun (digits, rest) => (some (negative, digits), rest)
    else some (none, s)
  | [] => some (none, [])

/-- Reads a number: no leading zero before other digits, and digits on both sides of a point. -/
def number? (s : List Char) : Option (Numeral × List Char) := do
  let (negative, s) := match s with
    | '-' :: rest => (true, rest)
    | _ => (false, s)
  let (whole, rest) ← digits? s
  if whole.head? == some '0' && whole.length != 1 then none
  else
    let (fraction, rest) ← match rest with
      | '.' :: rest => digits? rest
      | _ => some ([], rest)
    let (exponent, rest) ← exponent? rest
    pure (⟨negative, whole, fraction, exponent⟩, rest)

mutual

/-- Reads one value. Of two nested steps at least one takes a character, so that `fuel` above twice
the length of the text is enough. -/
def value? : (fuel : Nat) → List Char → Option (Syntax × List Char)
  | 0, _ => none
  | fuel + 1, s =>
    match skip s with
    | 'n' :: 'u' :: 'l' :: 'l' :: rest => some (.null, rest)
    | 't' :: 'r' :: 'u' :: 'e' :: rest => some (.bool true, rest)
    | 'f' :: 'a' :: 'l' :: 's' :: 'e' :: rest => some (.bool false, rest)
    | '"' :: rest => (string? rest).map fun (units, rest) => (.string units, rest)
    | '[' :: rest =>
      match skip rest with
      | ']' :: rest => some (.array [], rest)
      | rest => (items? fuel rest).map fun (items, rest) => (.array items, rest)
    | '\x7b' :: rest =>
      match skip rest with
      | '\x7d' :: rest => some (.object [], rest)
      | rest => (members? fuel rest).map fun (members, rest) => (.object members, rest)
    | rest => (number? rest).map fun (numeral, rest) => (.number numeral, rest)

/-- Reads the items of an array that has some, up to and with the closing bracket. -/
def items? : (fuel : Nat) → List Char → Option (List Syntax × List Char)
  | 0, _ => none
  | fuel + 1, s => do
    let (item, rest) ← value? fuel s
    match skip rest with
    | ']' :: rest => pure ([item], rest)
    | ',' :: rest =>
      let (items, rest) ← items? fuel rest
      pure (item :: items, rest)
    | _ => none

/-- Reads the members of an object that has some, up to and with the closing brace. -/
def members? : (fuel : Nat) → List Char → Option (List (Quoted × Syntax) × List Char)
  | 0, _ => none
  | fuel + 1, s =>
    match skip s with
    | '"' :: rest => do
      let (name, rest) ← string? rest
      match skip rest with
      | ':' :: rest =>
        let (value, rest) ← value? fuel rest
        match skip rest with
        | '\x7d' :: rest => pure ([(name, value)], rest)
        | ',' :: rest =>
          let (members, rest) ← members? fuel rest
          pure ((name, value) :: members, rest)
        | _ => none
      | _ => none
    | _ => none

end

end Reader

/-- Reads a whole text, which may have space around its one value. -/
def Syntax.read? (s : List Char) : Option Syntax :=
  match Reader.value? (2 * s.length + 1) s with
  | some (value, rest) => if (Reader.skip rest).isEmpty then some value else none
  | none => none

/-- Joins pairs of surrogates and refuses single ones. -/
def Quoted.decode? : Quoted → Option (List Char)
  | [] => some []
  | high :: low :: rest =>
    if 0xD800 ≤ high ∧ high < 0xDC00 then
      if 0xDC00 ≤ low ∧ low < 0xE000 then
        (decode? rest).map
          (Char.ofNat (0x10000 + (high - 0xD800) * 0x400 + (low - 0xDC00)) :: ·)
      else none
    else if 0xDC00 ≤ high ∧ high < 0xE000 then none
    else (decode? (low :: rest)).map (Char.ofNat high :: ·)
  | [unit] =>
    if 0xD800 ≤ unit ∧ unit < 0xE000 then none else some [Char.ofNat unit]

end Catalog.Json
