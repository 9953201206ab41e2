import Catalog.Files.Content
import Catalog.Files.Path
import Catalog.Order.Keyed

/-! Trees of files, directories and symbolic links. All paths are relative to the top of the tree, and
no file outside it exists: an absolute path leads nowhere, and neither does a link with an absolute target. -/

namespace Catalog.Files

open Catalog.Order

/-- Where an entry is: the names from the top down to it. -/
abbrev Location := List Name

/-- An entry of a directory. -/
inductive Entry where
  /-- A file with what is in it and the time of its last change, in nanoseconds since the epoch. -/
  | file (content : Content) (modified : Int)
  /-- A directory. What is in a barred one cannot be listed, but can be reached by its path. -/
  | directory (barred : Bool := false)
  /-- A symbolic link, its target relative to the directory that holds the link. -/
  | link (target : Path)
deriving DecidableEq, Repr, Inhabited

/-- The entries below the top by their places, in order. -/
structure FileTree where
  entries : List (Location × Entry)
deriving Repr, Inhabited

namespace FileTree

/-- The tree without entries. -/
def empty : FileTree := ⟨[]⟩

/-- The place is the top or above it. -/
def isAtTop (location : Location) : Bool := location.all (· == Name.up)

/-- The entry at a place. The top is a directory, and so is everything above it. -/
def at? (tree : FileTree) (location : Location) : Option Entry :=
  if isAtTop location then some .directory else get? location tree.entries

/-- The tree with an entry at a place. -/
def insert (tree : FileTree) (location : Location) (entry : Entry) : FileTree :=
  ⟨put location entry tree.entries⟩

/-- The names in a directory and what they stand for, in order of the names. -/
def children (tree : FileTree) (location : Location) : List (Name × Entry) :=
  tree.entries.filterMap fun (place, entry) =>
    match place.getLast? with
    | some name => if place.dropLast = location then some (name, entry) else none
    | none => none

/-- What is in the directory at a place cannot be listed. -/
def isBarred (tree : FileTree) (location : Location) : Bool :=
  match tree.at? location with
  | some (.directory barred) => barred
  | _ => false

/-! ### Following paths -/

/-- The place of the directory that holds the one at a place. -/
def outer (location : Location) : Location :=
  if isAtTop location then location ++ [Name.up] else location.dropLast

/-- The place that steps lead to from a directory. `follow` goes on where a link is met. Above the top
there are directories in which nothing is found. -/
def resolveSteps (tree : FileTree) (follow : Location → List Name → Except FileError Location)
    (location : Location) : List Name → Except FileError Location
  | [] => .ok location
  | name :: rest =>
    if name = Name.here then resolveSteps tree follow location rest
    else if name = Name.up then resolveSteps tree follow (outer location) rest
    else
      let next := location ++ [name]
      match tree.at? next with
      | none => .error .missing
      | some (.directory _) => resolveSteps tree follow next rest
      | some (.file _ _) => if rest.isEmpty then .ok next else .error .notDirectory
      | some (.link target) =>
        if target.isAbsolute then .error .missing else follow location (target.steps ++ rest)

/-- The place that steps lead to over at most so many links. -/
def resolveWithin (tree : FileTree) : (links : Nat) → Location → List Name →
    Except FileError Location
  | 0 => tree.resolveSteps fun _ _ => .error .tooManyLinks
  | links + 1 => tree.resolveSteps (tree.resolveWithin links)

/-- The number of links that a path may lead over. -/
def mostLinks : Nat := 40

/-- The place that a path leads to, every link on the way followed. -/
def resolve (tree : FileTree) (path : Path) : Except FileError Location :=
  if path.bytes.contains 0 then .error .zeroByte
  else if path.bytes.isEmpty || path.isAbsolute then .error .missing
  else tree.resolveWithin mostLinks [] path.steps

/-- The entry that a path leads to. -/
def stat (tree : FileTree) (path : Path) : Except FileError Entry :=
  (tree.resolve path).bind fun location =>
    match tree.at? location with
    | some entry => .ok entry
    | none => .error .missing

/-- The path leads to a file. -/
def isFile (tree : FileTree) (path : Path) : Bool :=
  match tree.stat path with
  | .ok (.file _ _) => true
  | _ => false

/-- The path leads to a directory. -/
def isDirectory (tree : FileTree) (path : Path) : Bool :=
  match tree.stat path with
  | .ok (.directory _) => true
  | _ => false

/-- The path leads somewhere. -/
def isThere (tree : FileTree) (path : Path) : Bool :=
  match tree.stat path with
  | .ok _ => true
  | .error _ => false

/-- The bytes of the file that a path leads to. -/
def read (tree : FileTree) (path : Path) : Except FileError (List UInt8) :=
  (tree.stat path).bind fun entry =>
    match entry with
    | .file content _ => content.read
    | _ => .error .isDirectory

/-! ### Changing the tree -/

/-- The tree with directories along some steps. What stands in the way is an error. -/
def makeSteps (tree : FileTree) (location : Location) :
    List Name → Except FileError (FileTree × Location)
  | [] => .ok (tree, location)
  | name :: rest =>
    if name = Name.here then makeSteps tree location rest
    else if name = Name.up then
      if location.isEmpty then .error .missing else makeSteps tree location.dropLast rest
    else
      let next := location ++ [name]
      match tree.at? next with
      | none => makeSteps (tree.insert next .directory) next rest
      | some (.directory _) => makeSteps tree next rest
      | some (.file _ _) => .error (if rest.isEmpty then .exists else .notDirectory)
      | some (.link target) =>
        match tree.resolveWithin mostLinks location target.steps with
        | .error .tooManyLinks => .error (if rest.isEmpty then .exists else .tooManyLinks)
        | .error _ => .error .exists
        | .ok place =>
          match tree.at? place with
          | some (.directory _) => makeSteps tree place rest
          | _ => .error (if rest.isEmpty then .exists else .notDirectory)

/-- The tree with a directory at a path and at everything above it, and the place of that directory. -/
def makeDirectories (tree : FileTree) (path : Path) : Except FileError (FileTree × Location) :=
  if path.bytes.contains 0 then .error .zeroByte
  else if path.isAbsolute then .error .missing
  else tree.makeSteps [] path.names

/-- The place where a new entry of the given path goes, its directories made. -/
def placeFor (tree : FileTree) (path : Path) : Except FileError (FileTree × Location) := do
  let (tree, directory) ← tree.makeDirectories path.parent
  match path.fileName? with
  | some name => pure (tree, directory ++ [name])
  | none => .error .isDirectory

/-- The place of the file that is written at a place: links are followed, even where nothing is yet. -/
def landing (tree : FileTree) : (links : Nat) → Location → Except FileError Location
  | 0, _ => .error .tooManyLinks
  | links + 1, place =>
    match tree.at? place with
    | some (.link target) => do
      if target.isAbsolute then .error .missing
      else
        let directory ← tree.resolveWithin mostLinks place.dropLast target.parent.steps
        match target.fileName? with
        | some name => tree.landing links (directory ++ [name])
        | none => .error .isDirectory
    | some (.directory _) => .error .isDirectory
    | _ => .ok place

/-- The tree with a file at a path, its directories made. -/
def write (tree : FileTree) (path : Path) (bytes : List UInt8) (modified : Int) :
    Except FileError FileTree := do
  let (tree, place) ← tree.placeFor path
  let place ← tree.landing mostLinks place
  pure (tree.insert place (.file (.sound bytes) modified))

/-- The tree with a symbolic link at a path. -/
def link (tree : FileTree) (path target : Path) : Except FileError FileTree := do
  let (tree, place) ← tree.placeFor path
  if (tree.at? place).isSome then .error .exists else pure (tree.insert place (.link target))

/-- The tree without the entry at a path and what is below it. A link itself goes, not its target. -/
def remove (tree : FileTree) (path : Path) : Except FileError FileTree := do
  let (_, place) ← tree.placeFor path
  if (tree.at? place).isNone then .error .missing
  else pure ⟨tree.entries.filter fun e => !place.isPrefixOf e.1⟩

end FileTree

end Catalog.Files
