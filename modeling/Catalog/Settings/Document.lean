import Catalog.Json.Value
import Catalog.Settings.Basic

/-! Settings as a JSON document. Each group of settings is an object whose members may be missing and
in any order, or a list of values in the order of the declaration, which may end early. Members with
other names are ignored, but no known one may be given twice. -/

namespace Catalog.Settings

open Catalog.Json Catalog.Text

/-- A setting of a group: its name, and how its value is read into the group. -/
structure Part (γ : Type) where
  name : String
  read : γ → Syntax → Option γ

/-- The members of an object read into a group; `seen` are the names that were given before. -/
def readMembers {γ : Type} (parts : List (Part γ)) (group : γ) (seen : List String) :
    List (Quoted × Syntax) → Option γ
  | [] => some group
  | (name, value) :: rest => do
    let name := String.ofList (← name.decode?)
    match parts.find? fun part => part.name == name with
    | none => readMembers parts group seen rest
    | some part =>
      if seen.contains name then none
      else
        let group ← part.read group value
        readMembers parts group (name :: seen) rest

/-- The items of a list read into a group in the order of its parts. -/
def readItems {γ : Type} (group : γ) : List (Part γ) → List Syntax → Option γ
  | _, [] => some group
  | [], _ :: _ => none
  | part :: parts, value :: rest => do
    let group ← part.read group value
    readItems group parts rest

/-- A group of settings read from a document, starting from its defaults. -/
def readGroup {γ : Type} (parts : List (Part γ)) (defaults : γ) : Syntax → Option γ
  | .object members => readMembers parts defaults [] members
  | .array items => readItems defaults parts items
  | _ => none

/-- A text. -/
def text? : Syntax → Option String
  | .string units => units.decode?.map String.ofList
  | _ => none

/-- A number that is written as an integer and is below a bound. -/
def natural? (bound : Nat) : Syntax → Option Nat
  | .number numeral =>
    match Number.ofNumeral? numeral with
    | some (.integer n) => if 0 ≤ n ∧ n < bound then some n.toNat else none
    | _ => none
  | _ => none

/-- A kind of index by its exact name, or as an object with the name as its only member, which is
null. -/
def indexKind? : Syntax → Option Similarity.IndexKind
  | .string units => units.decode?.bind fun name => Similarity.IndexKind.ofName? (String.ofList name)
  | .object [(name, .null)] =>
    name.decode?.bind fun name => Similarity.IndexKind.ofName? (String.ofList name)
  | _ => none

/-- The parts of the rules for flattening. -/
def flattenParts : List (Part FlattenRules) :=
  [⟨"reserved_prefix", fun group value => (text? value).map ({ group with reservedPrefix := · })⟩,
   ⟨"locked_marker", fun group value => (text? value).map ({ group with lockedMarker := · })⟩,
   ⟨"max_value_len", fun group value =>
     (natural? (Nat.pow 2 64) value).map ({ group with maxValueLength := · })⟩,
   ⟨"normalized_category", fun group value =>
     (text? value).map ({ group with normalizedCategory := · })⟩]

/-- The parts of the settings for similarity. -/
def similarityParts : List (Part SimilaritySettings) :=
  [⟨"algorithm", fun group value => (text? value).map ({ group with algorithm := · })⟩,
   ⟨"index", fun group value => (indexKind? value).map ({ group with index := · })⟩,
   ⟨"default_threshold", fun group value =>
     (natural? (Nat.pow 2 32) value).map ({ group with defaultThreshold := · })⟩]

/-- The parts of the settings for connections. -/
def poolParts : List (Part PoolSettings) :=
  [⟨"max_size", fun group value => (natural? (Nat.pow 2 32) value).map ({ group with maxSize := · })⟩,
   ⟨"busy_timeout_ms", fun group value =>
     (natural? (Nat.pow 2 64) value).map ({ group with busyTimeoutMs := · })⟩]

/-- The groups of all settings. -/
def parts : List (Part Settings) :=
  [⟨"db_path", fun settings value => (text? value).map ({ settings with databasePath := · })⟩,
   ⟨"flatten", fun settings value =>
     (readGroup flattenParts {} value).map ({ settings with flatten := · })⟩,
   ⟨"similarity", fun settings value =>
     (readGroup similarityParts {} value).map ({ settings with similarity := · })⟩,
   ⟨"pool", fun settings value => (readGroup poolParts {} value).map ({ settings with pool := · })⟩]

/-- Reads settings from the text of a document. -/
def read? (text : String) : Option Settings :=
  (Syntax.read? text.toList).bind (readGroup parts {})

/-- Settings as a document. -/
def toDocument (settings : Settings) : Value :=
  .object
    [("db_path", .string settings.databasePath),
     ("flatten", .object
       [("reserved_prefix", .string settings.flatten.reservedPrefix),
        ("locked_marker", .string settings.flatten.lockedMarker),
        ("max_value_len", .number (.integer settings.flatten.maxValueLength)),
        ("normalized_category", .string settings.flatten.normalizedCategory)]),
     ("similarity", .object
       [("algorithm", .string settings.similarity.algorithm),
        ("index", .string settings.similarity.index.name),
        ("default_threshold", .number (.integer settings.similarity.defaultThreshold))]),
     ("pool", .object
       [("max_size", .number (.integer settings.pool.maxSize)),
        ("busy_timeout_ms", .number (.integer settings.pool.busyTimeoutMs))])]

end Catalog.Settings
