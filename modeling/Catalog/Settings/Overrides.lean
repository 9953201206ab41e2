import Catalog.Settings.Basic
import Catalog.Text.Search
import Catalog.Text.Utf8

/-! Overrides: settings as lines `NAME=value` of a file. Blank lines and lines that start with `#` say
nothing, nor do unknown names; blanks around names and values do not count. -/

namespace Catalog

open Catalog.Text

/-- Why a line cannot be applied. -/
inductive OverrideError where
  | invalidLength (value : String)
  | unknownIndex (value : String)
  | notText
deriving DecidableEq, Repr, Inhabited

/-- The message for a line that cannot be applied. -/
def OverrideError.message : OverrideError → String
  | .invalidLength value => "Invalid METAVAULT_MAX_VALUE_LEN: " ++ value
  | .unknownIndex value => Similarity.IndexKind.unknownMessage value
  | .notText => "stream did not contain valid UTF-8"

namespace Settings

/-- The settings with the value of one name. -/
def override (settings : Settings) (name value : String) : Except OverrideError Settings :=
  let rules := settings.flatten
  match name with
  | "METAVAULT_DB_PATH" => .ok { settings with databasePath := value }
  | "METAVAULT_RESERVED_PREFIX" =>
    .ok { settings with flatten := { rules with reservedPrefix := value } }
  | "METAVAULT_LOCKED_MARKER" =>
    .ok { settings with flatten := { rules with lockedMarker := value } }
  | "METAVAULT_MAX_VALUE_LEN" =>
    match word64? value.toList with
    | some length => .ok { settings with flatten := { rules with maxValueLength := length } }
    | none => .error (.invalidLength value)
  | "METAVAULT_SIMILARITY_INDEX" =>
    match Similarity.IndexKind.read? value with
    | some kind => .ok { settings with similarity := { settings.similarity with index := kind } }
    | none => .error (.unknownIndex value)
  | "METAVAULT_SIMILARITY_ALGORITHM" =>
    .ok { settings with similarity := { settings.similarity with algorithm := value } }
  | _ => .ok settings

/-- The settings with what one line says. -/
def applyLine (settings : Settings) (line : List Char) : Except OverrideError Settings :=
  match trim line with
  | [] => .ok settings
  | '#' :: _ => .ok settings
  | line =>
    match cut? '=' line with
    | some (name, value) =>
      settings.override (String.ofList (trim name)) (String.ofList (trim value))
    | none => .ok settings

/-- The settings with what the lines say, up to the first that cannot be applied. -/
def applyLines (settings : Settings) : List (List UInt8) → Settings × Option OverrideError
  | [] => (settings, none)
  | line :: rest =>
    match ofBytes? line with
    | none => (settings, some .notText)
    | some text =>
      match settings.applyLine text.toList with
      | .ok settings => applyLines settings rest
      | .error cause => (settings, some cause)

/-- The lines of a file: the bytes between line feeds. -/
def linesOf : List UInt8 → List (List UInt8)
  | [] => [[]]
  | byte :: rest =>
    match linesOf rest with
    | [] => [[byte]]
    | line :: lines => if byte = 10 then [] :: line :: lines else (byte :: line) :: lines

/-- The settings with what a file says. What stands before a line that cannot be applied counts. -/
def applyFile (settings : Settings) (bytes : List UInt8) : Settings × Option OverrideError :=
  settings.applyLines (linesOf bytes)

/-- The lines that give the settings that can be overridden. -/
def toOverrides (settings : Settings) : String :=
  "METAVAULT_DB_PATH=" ++ settings.databasePath ++ "\n" ++
  "METAVAULT_RESERVED_PREFIX=" ++ settings.flatten.reservedPrefix ++ "\n" ++
  "METAVAULT_LOCKED_MARKER=" ++ settings.flatten.lockedMarker ++ "\n" ++
  "METAVAULT_MAX_VALUE_LEN=" ++
    String.ofList (Nat.toDigits 10 settings.flatten.maxValueLength) ++ "\n" ++
  "METAVAULT_SIMILARITY_INDEX=" ++ settings.similarity.index.name ++ "\n" ++
  "METAVAULT_SIMILARITY_ALGORITHM=" ++ settings.similarity.algorithm ++ "\n"

end Settings

end Catalog
