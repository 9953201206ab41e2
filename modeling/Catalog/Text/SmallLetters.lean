import Catalog.Text.Blank
import Catalog.Text.CaseTable

/-! Small letters in all scripts. The small form of a text depends on more than single characters:
one capital has a small form of two characters, and the Greek sigma has a form for the end of a
word. -/

namespace Catalog.Text

/-- The small letter of a single character, itself if it has none. -/
def smallLetter (c : Char) : Char :=
  match capitalRuns.find? fun (first, last, step, _) =>
      first ≤ c.toNat && c.toNat ≤ last && (c.toNat - first) % step == 0 with
  | some (_, _, _, distance) => Char.ofNat (c.toNat + distance).toNat
  | none => c

/-- The first character that is not passed over has case. -/
def meetsCasedLetter (s : List Char) : Bool :=
  match s.find? fun c => !inRanges passedOverRanges c.toNat with
  | some c => inRanges casedRanges c.toNat
  | none => false

/-- The small form of a character between the text before it, last character first, and the text
after it. -/
def smallForm (before : List Char) (c : Char) (after : List Char) : List Char :=
  if c = 'İ' then ['i', '\u0307']
  else if c = 'Σ' then
    if meetsCasedLetter before && !meetsCasedLetter after then ['ς'] else ['σ']
  else [smallLetter c]

/-- The small forms of the characters of a text that follows `before`. -/
def smallFormsAfter (before : List Char) : List Char → List Char
  | [] => []
  | c :: rest => smallForm before c rest ++ smallFormsAfter (c :: before) rest

/-- The text in small letters. -/
def smallLetters (s : String) : String := String.ofList (smallFormsAfter [] s.toList)

end Catalog.Text
