import Catalog.Field.Basic
import Catalog.Query.Clause
import Catalog.Query.Literal
import Catalog.Query.Operator

/-! Compiling a query: each clause becomes a predicate on files, either by one of the shortcuts such
as `camera:` or as a comparison `category.key OP value`. A clause that is neither is dropped. -/

namespace Catalog.Query

open Catalog.Text

/-- The properties of a file itself that a query can name. -/
inductive FileColumn where
  | path | size | type
deriving DecidableEq, Repr, Inhabited

namespace FileColumn

/-- The name of the property. -/
def name : FileColumn → String
  | path => "path"
  | size => "size"
  | type => "type"

/-- The property with a name, in any ASCII case. -/
def ofName? (s : List Char) : Option FileColumn :=
  [path, size, type].find? fun column => sameLetters s column.name.toList

end FileColumn

/-- What a predicate speaks about: the file itself, or one of its fields. -/
inductive FieldRef where
  | file (column : FileColumn)
  | field (key : FieldKey)
deriving DecidableEq, Repr, Inhabited

/-- A comparison of a property of a file with a literal. -/
structure Predicate where
  field : FieldRef
  op : Operator
  literal : Literal
deriving DecidableEq, Repr, Inhabited

/-- What the value of a shortcut means. -/
inductive ShortcutForm where
  /-- A literal for the given operator. -/
  | fixed (op : Operator)
  /-- A size, after an optional ordering. -/
  | sized
  /-- A literal, after an optional ordering; without one it must be equal. -/
  | compared
  /-- A text, after an optional ordering; without one it must occur. -/
  | dated
deriving DecidableEq, Repr

/-- A clause that begins with a word and a colon. -/
structure Shortcut where
  word : String
  target : FileColumn ⊕ String
  form : ShortcutForm

/-- The shortcuts. Those that are about fields name a normalized one. -/
def shortcuts : List Shortcut :=
  [⟨"camera:", .inr "camera_make", .fixed .eq⟩,
   ⟨"make:", .inr "camera_make", .fixed .eq⟩,
   ⟨"model:", .inr "camera_model", .fixed .like⟩,
   ⟨"lens:", .inr "lens", .fixed .like⟩,
   ⟨"format:", .inr "format", .fixed .like⟩,
   ⟨"type:", .inl .type, .fixed .like⟩,
   ⟨"name:", .inl .path, .fixed .like⟩,
   ⟨"path:", .inl .path, .fixed .like⟩,
   ⟨"filename:", .inl .path, .fixed .like⟩,
   ⟨"size:", .inl .size, .sized⟩,
   ⟨"date:", .inr "date_taken", .dated⟩,
   ⟨"width:", .inr "width", .compared⟩,
   ⟨"height:", .inr "height", .compared⟩]

/-- The literal of a value: a piece of text to look for is taken as it is typed. -/
def literalFor (op : Operator) (value : List Char) : Literal :=
  if op.isSubstring then .verbatim value else .read value

/-- The operators that can stand at the start of a shortcut's value. -/
def leadingOperators : List Operator := [.ge, .le, .gt, .lt, .eq]

/-- The operator at the start of a value, if there is one, and the rest. -/
def takeOperator (value : List Char) : Option Operator × List Char :=
  match leadingOperators.findSome? fun op =>
      (afterStart? op.symbol value).map fun rest => (some op, trim rest) with
  | some found => found
  | none => (none, value)

/-- The shortcut that a clause begins with in any ASCII case, and its value. -/
def shortcut? (clause : List Char) : Option (Shortcut × List Char) :=
  shortcuts.findSome? fun shortcut =>
    let word := shortcut.word.toList
    if sameLetters (clause.take word.length) word then
      some (shortcut, trim (clause.drop word.length))
    else none

/-- The operator and the literal of a shortcut's value. -/
def ShortcutForm.comparison? (form : ShortcutForm) (value : List Char) : Option (Operator × Literal) :=
  match form with
  | .fixed op => some (op, literalFor op value)
  | .sized =>
    let (op, rest) := takeOperator value
    (size? rest).map fun bytes => (op.getD .eq, .number bytes)
  | .compared =>
    let (op, rest) := takeOperator value
    some (op.getD .eq, .read rest)
  | .dated =>
    let (op, rest) := takeOperator value
    some (op.getD .like, .verbatim rest)

/-- The property that a shortcut is about. -/
def Shortcut.field (shortcut : Shortcut) (normalizedCategory : String) : FieldRef :=
  match shortcut.target with
  | .inl column => .file column
  | .inr key => .field ⟨normalizedCategory, key⟩

/-- The predicate of a shortcut and its value. One with an empty text is dropped. -/
def Shortcut.predicate? (shortcut : Shortcut) (normalizedCategory : String) (value : List Char) :
    Option Predicate := do
  let (op, literal) ← shortcut.form.comparison? value
  if literal.isEmpty then none
  else pure ⟨shortcut.field normalizedCategory, op, literal⟩

/-- What a name stands for: `category.key`, a property of the file with or without `file.` before it,
or the key of a normalized field. -/
def resolve? (normalizedCategory : String) (name : List Char) : Option FieldRef :=
  match cut? '.' name with
  | some (category, key) =>
    if category.isEmpty || key.isEmpty then none
    else
      match FileColumn.ofName? key with
      | some column =>
        if sameLetters category "file".toList then some (.file column)
        else some (.field ⟨String.ofList category, String.ofList key⟩)
      | none => some (.field ⟨String.ofList category, String.ofList key⟩)
  | none =>
    match FileColumn.ofName? name with
    | some column => some (.file column)
    | none => some (.field ⟨normalizedCategory, String.ofList name⟩)

/-- The literal of a comparison with a property. A text that is compared with the size of a file is
read as a size. -/
def literalAgainst? (field : FieldRef) (op : Operator) (value : List Char) : Option Literal :=
  match field, literalFor op value with
  | .file .size, .text text => (size? text.toList).map .number
  | _, literal => some literal

/-- The predicate of a clause that is a comparison. -/
def comparison? (normalizedCategory : String) (clause : List Char) : Option Predicate := do
  let split ← Split.ofClause? clause
  let name := trim split.left
  let value := trim split.right
  if name.isEmpty || value.isEmpty || name.any isBlank then none
  else
    let field ← resolve? normalizedCategory name
    let literal ← literalAgainst? field split.op value
    pure ⟨field, split.op, literal⟩

/-- The predicate of a clause, if it can be understood. -/
def predicate? (normalizedCategory : String) (clause : List Char) : Option Predicate :=
  match shortcut? clause with
  | some (shortcut, value) => shortcut.predicate? normalizedCategory value
  | none => comparison? normalizedCategory clause

/-- A compiled query: all predicates must hold. -/
structure Compiled where
  predicates : List Predicate
  /-- The number of clauses, dropped ones included. -/
  clauses : Nat
deriving DecidableEq, Repr, Inhabited

namespace Compiled

/-- The number of clauses that became no predicate. -/
def dropped (compiled : Compiled) : Nat := compiled.clauses - compiled.predicates.length

end Compiled

/-- Compiles a query whose short names mean fields of the normalized category. -/
def compile (normalizedCategory : String) (query : String) : Compiled :=
  let parts := clauses query.toList
  ⟨parts.filterMap (predicate? normalizedCategory), parts.length⟩

end Catalog.Query
