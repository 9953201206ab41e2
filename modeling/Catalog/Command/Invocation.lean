import Catalog.Command.Arguments
import Catalog.Files.Path

/-! The commands of the program, and how they are given as arguments. -/

namespace Catalog.Command

open Catalog.Files Catalog.Text

/-- What the program is to do with a catalog. -/
inductive Request where
  /-- Store a file with the document in another one. -/
  | ingest (file metadata : Path) (hashes : List String) (favorite : Bool) (notes : Option String)
      (tags : List String)
  /-- Store every file below a directory. -/
  | scan (directory : Path) (workers : Nat)
  | search (query : String) (limit offset : Nat)
  /-- The changes of a file, which is named by its id or its path. -/
  | history (file : String) (limit offset : Nat)
  | stats
  | listFavorites (limit : Nat)
  | toggleFavorite (file : Int) (notes : Option String) (tags : List String)
  | similar (hash : String) (threshold : Option Nat) (limit : Nat) (algorithm : Option String)
  | delete (path : Path)
deriving DecidableEq, Repr

/-- A request, and the files that it is about. -/
structure Invocation where
  /-- The database, in place of the one in the settings. -/
  database : Option String
  /-- The file that holds the settings. -/
  settings : Option Path
  request : Request
deriving DecidableEq, Repr

/-- The options of every command. -/
def commonOptions : List OptionForm :=
  [⟨"db", some 'd', .single .path, false⟩, ⟨"config", some 'c', .single .path, false⟩,
   ⟨"help", some 'h', .question, false⟩]

/-- The options for a part of a long list. -/
def windowOptions : List OptionForm :=
  [⟨"limit", some 'l', .single .count, false⟩, ⟨"offset", some 'o', .single .count, false⟩]

/-- The options for what a user says about a favorite. -/
def favoriteOptions : List OptionForm :=
  [⟨"notes", none, .single .text, false⟩, ⟨"tag", none, .repeated .text, false⟩]

/-- The commands about favorites. -/
def favoriteCommands : List (String × Grammar) :=
  [("list", .operands [⟨"limit", some 'l', .single .count, false⟩] []),
   ("toggle", .operands favoriteOptions [.id])]

/-- The commands of the program. -/
def commands : List (String × Grammar) :=
  [("ingest", .operands
     ([⟨"metadata", some 'm', .single .path, true⟩, ⟨"hash", none, .repeated .text, false⟩,
       ⟨"favorite", none, .mark, false⟩] ++ favoriteOptions) [.path]),
   ("scan", .operands [⟨"workers", some 'w', .single .count, false⟩] [.path]),
   ("search", .operands windowOptions [.text]),
   ("history", .operands windowOptions [.text]),
   ("stats", .operands [] []),
   ("favorites", .choice [] favoriteCommands),
   ("similar", .operands
     [⟨"threshold", some 't', .single .bound, false⟩, ⟨"limit", some 'l', .single .count, false⟩,
      ⟨"algorithm", some 'a', .single .text, false⟩] [.text]),
   ("delete", .operands [] [.path])]

/-- The grammar of the program's arguments. -/
def programGrammar : Grammar :=
  .choice [⟨"version", some 'V', .question, false⟩] commands

namespace Given

/-- The number that an option was given with, or else the usual one. -/
def count (given : Given) (name : String) (usual : Nat) : Nat :=
  ((given.value? name).bind fun value => word64? value.toList).getD usual

end Given

namespace Request

/-- The request of a command without commands of its own. -/
def ofGiven? (given : Given) : Option Request :=
  match given.command, given.operands with
  | "ingest", [file] =>
    (given.value? "metadata").map fun metadata =>
      .ingest file metadata (given.values "hash") (given.has "favorite") (given.value? "notes")
        (given.values "tag")
  | "scan", [directory] => some (.scan directory (given.count "workers" 4))
  | "search", [query] => some (.search query (given.count "limit" 50) (given.count "offset" 0))
  | "history", [file] => some (.history file (given.count "limit" 50) (given.count "offset" 0))
  | "stats", [] => some .stats
  | "similar", [hash] =>
    some <| .similar hash ((given.value? "threshold").bind fun value => word32? value.toList)
      (given.count "limit" 20) (given.value? "algorithm")
  | "delete", [path] => some (.delete path)
  | _, _ => none

/-- The request of a command about favorites. -/
def ofFavoriteCommand? (given : Given) : Option Request :=
  match given.command, given.operands with
  | "list", [] => some (.listFavorites (given.count "limit" 50))
  | "toggle", [file] =>
    (signed64? file.toList).map fun file =>
      .toggleFavorite file (given.value? "notes") (given.values "tag")
  | _, _ => none

end Request

namespace Invocation

/-- The value of an option of every command: the one that was given last on the way counts. -/
def common? (path : List Given) (name : String) : Option String :=
  path.reverse.findSome? fun given => given.value? name

/-- The invocation that was given to commands one below the other. -/
def ofPath? (path : List Given) : Option Invocation := do
  let request ← match path with
    | [_, given] => Request.ofGiven? given
    | [_, _, given] => Request.ofFavoriteCommand? given
    | _ => none
  pure ⟨common? path "db", common? path "config", request⟩

end Invocation

end Catalog.Command
