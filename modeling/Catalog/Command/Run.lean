import Catalog.Command.Invocation
import Catalog.Command.Listing
import Catalog.Json.Printer
import Catalog.Settings.Document
import Catalog.Settings.Overrides
import Catalog.Store.Database

/-! Running the program: the settings are found, the database is opened, the request is done, and the
answer is printed as a document. -/

namespace Catalog.Command

open Catalog.Files Catalog.Json Catalog.Text

/-- Why a run fails. -/
inductive RunError where
  | settingsUnreadable (path : Path)
  | settingsMalformed (path : Path)
  | overridesUnreadable (cause : FileError)
  | override (cause : OverrideError)
  /-- The database cannot be opened. -/
  | closed (cause : StoreError)
  | metadataUnreadable (path : Path)
  | metadataMalformed (path : Path)
  | noHash (pair : String)
  | store (cause : StoreError)
  | scan (cause : Import.ScanError)
deriving DecidableEq, Repr

/-- What a failed run says. -/
def RunError.message : RunError → String
  | settingsUnreadable path => "Failed to read config file: " ++ path.quoted
  | settingsMalformed path => "Failed to parse config file: " ++ path.quoted
  | overridesUnreadable cause => cause.message
  | override cause => cause.message
  | closed _ => "Failed to open database"
  | metadataUnreadable path => "Failed to read metadata document " ++ path.quoted
  | metadataMalformed path => "Failed to parse metadata document " ++ path.quoted
  | noHash pair => "Expected algorithm=hex, got '" ++ pair ++ "'"
  | store cause => cause.message?.getD "Database Error"
  | scan cause => cause.message

/-- The text in the file at a path. -/
def textAt? (files : FileTree) (path : Path) : Option String :=
  match files.read path with
  | .ok bytes => ofBytes? bytes
  | .error _ => none

/-- The settings in the file at a path. -/
def loadSettings (files : FileTree) (path : Path) : Except RunError Settings :=
  match textAt? files path with
  | none => .error (.settingsUnreadable path)
  | some text =>
    match Settings.read? text with
    | none => .error (.settingsMalformed path)
    | some settings => .ok settings

/-- The file of overrides. -/
def overridesPath : Path := ".env"

/-- The usual settings with the overrides, if there are any. -/
def discoverSettings (files : FileTree) : Except RunError Settings :=
  match files.stat overridesPath with
  | .error _ => .ok {}
  | .ok _ =>
    match files.read overridesPath with
    | .error cause => .error (.overridesUnreadable cause)
    | .ok bytes =>
      match Settings.applyFile {} bytes with
      | (settings, none) => .ok settings
      | (_, some cause) => .error (.override cause)

/-- The settings of an invocation. -/
def settingsFor (files : FileTree) (invocation : Invocation) : Except RunError Settings := do
  let settings ← match invocation.settings with
    | some path => loadSettings files path
    | none => discoverSettings files
  pure { settings with databasePath := invocation.database.getD settings.databasePath }

/-- An algorithm and a hash with an equals sign between them. -/
def readHash (pair : String) : Except RunError (String × String) :=
  match cut? '=' pair.toList with
  | some (algorithm, hash) => .ok (String.ofList (trim algorithm), String.ofList (trim hash))
  | none => .error (.noHash pair)

/-- The hashes that are given; without any there are none to store. -/
def readHashes : List String → Except RunError (Option (List (String × String)))
  | [] => .ok none
  | pairs => (pairs.mapM readHash).map some

/-- The document in the file at a path. -/
def readMetadata (files : FileTree) (path : Path) : Except RunError Value :=
  match textAt? files path with
  | none => .error (.metadataUnreadable path)
  | some text =>
    match Value.read? text with
    | none => .error (.metadataMalformed path)
    | some document => .ok document

/-- What `ingest` says about the favorite: anything said makes one. -/
def favoriteInput? (favorite : Bool) (notes : Option String) (tags : List String) :
    Option FavoriteInput :=
  if favorite || notes.isSome || !tags.isEmpty then some ⟨notes, tags⟩ else none

/-- A catalog after an operation on it, and the answer, made from the result. -/
def answerWith {α : Type} (toValue : α → Value) (done : Store × Except StoreError α) :
    Store × Except RunError Value :=
  match done with
  | (store, .ok result) => (store, .ok (toValue result))
  | (store, .error cause) => (store, .error (.store cause))

/-- The catalog after a file is stored with its document, and the answer. -/
def ingest (store : Store) (files : FileTree) (now : Timestamp) (file metadata : Path)
    (pairs : List String) (favorite : Option FavoriteInput) : Store × Except RunError Value :=
  let read := do
    let document ← readMetadata files metadata
    let hashes ← readHashes pairs
    pure (document, hashes)
  match read with
  | .error cause => (store, .error cause)
  | .ok (document, hashes) =>
    answerWith (fun id => .ofMembers [("file_id", integerValue id)])
      (store.upsert files now file document hashes favorite)

/-- The changes of a file that is named by its id or else by its path. -/
def historyOf (store : Store) (file : String) (limit offset : Nat) : List LedgerEntry :=
  match signed64? file.toList with
  | some id => store.history id limit offset
  | none => store.historyAt file limit offset

/-- The files nearest to a hash by the given algorithm and threshold or else the configured ones. -/
def similarTo (store : Store) (hash : String) (threshold : Option Nat) (limit : Nat)
    (algorithm : Option String) : List Similarity.Match :=
  let threshold := threshold.getD store.settings.similarity.defaultThreshold
  match algorithm with
  | some algorithm => store.similarBy algorithm hash threshold limit
  | none => store.similar hash threshold limit

/-- The catalog after a request, and the answer. -/
def perform (store : Store) (files : FileTree) (clock : Nat → Timestamp) :
    Request → Store × Except RunError Value
  | .ingest file metadata pairs favorite notes tags =>
    ingest store files (clock 0) file metadata pairs (favoriteInput? favorite notes tags)
  | .scan directory _ =>
    match Import.scan store files clock directory with
    | (store, .ok report) => (store, .ok (scanValue report))
    | (store, .error cause) => (store, .error (.scan cause))
  | .search query limit offset => (store, .ok (searchValue (store.search query limit offset)))
  | .history file limit offset =>
    (store, .ok (listValue entryValue (historyOf store file limit offset)))
  | .stats => (store, .ok (statsValue store.stats))
  | .listFavorites limit => (store, .ok (listValue favoriteValue (store.favorites limit)))
  | .toggleFavorite file notes tags =>
    answerWith
      (fun favorite => .ofMembers [("file_id", integerValue file), ("favorite", .bool favorite)])
      (store.toggleFavorite (clock 0) file notes tags)
  | .similar hash threshold limit algorithm =>
    (store, .ok (listValue matchValue (similarTo store hash threshold limit algorithm)))
  | .delete path =>
    let (store, deleted) := store.delete path
    (store, .ok (.ofMembers [("deleted", .bool deleted)]))

/-- The files after an invocation, and its answer. The database is opened even if the request fails
then. -/
def invoke (files : FileTree) (clock : Nat → Timestamp) (invocation : Invocation) :
    FileTree × Except RunError Value :=
  match settingsFor files invocation with
  | .error cause => (files, .error cause)
  | .ok settings =>
    let path := settings.databasePath
    match Store.openAt files path settings with
    | .error cause => (files, .error (.closed cause))
    | .ok (files, store) =>
      let (store, answer) := perform store files clock invocation.request
      (store.saveAt files path, answer)

/-- What a run leaves behind. -/
structure Outcome where
  files : FileTree
  /-- Zero for success, one for a run that failed, two for arguments that are refused. -/
  status : Nat
  /-- The text on standard output. -/
  output : String := ""
  /-- The text on standard error. -/
  complaint : String := ""

/-- What the program says about itself. -/
def usage : String :=
  "Usage: catalog [--db FILE] [--config FILE] COMMAND\n\n" ++
  "Commands: " ++ ", ".intercalate (commands.map (·.1)) ++ "\n"

/-- Runs the program with its arguments. -/
def run (files : FileTree) (clock : Nat → Timestamp) (arguments : List String) : Outcome :=
  let refused : Outcome := { files, status := 2, complaint := usage }
  match programGrammar.read commonOptions arguments with
  | .question => { files, status := 0, output := usage }
  | .refused => refused
  | .accepted path =>
    match Invocation.ofPath? path with
    | none => refused
    | some invocation =>
      match invoke files clock invocation with
      | (files, .ok answer) => { files, status := 0, output := answer.indented ++ "\n" }
      | (files, .error cause) =>
        { files, status := 1, complaint := "Error: " ++ cause.message ++ "\n" }

end Catalog.Command
