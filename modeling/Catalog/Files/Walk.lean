import Catalog.Files.Tree

/-! Walking a tree: the files at and below a directory. Links are followed; one that leads nowhere, to a
barred directory, or to one that the walk is inside of, cannot be. Entries whose names are texts that start
with a point are passed over, but a link is followed before its name is looked at. -/

namespace Catalog.Files

/-- What a walk comes across. -/
inductive Visit where
  | file (path : Path)
  | unreadable (path : Path)
deriving DecidableEq, Repr

/-- The name is hidden: it is a text that starts with a point. A name that is no text is not hidden. -/
def isHidden (name : Name) : Bool := name.text?.any fun text => ['.'].isPrefixOf text.toList

namespace FileTree

/-- What stands behind an entry of a directory once links are followed: its place and whether it is a
file. A link is followed by the whole path `here` of the entry; one to a barred directory or to one in
`within` leads nowhere. -/
def behind? (tree : FileTree) (here : Path) (directory : Location) (within : List Location)
    (name : Name) : Entry → Option (Location × Bool)
  | .file _ _ => some (directory ++ [name], true)
  | .directory _ => some (directory ++ [name], false)
  | .link _ =>
    match tree.resolve here with
    | .error _ => none
    | .ok place =>
      match tree.at? place with
      | some (.file _ _) => some (place, true)
      | some (.directory barred) =>
        if barred || within.contains place then none else some (place, false)
      | _ => none

/-- What a walk comes across in a directory at a place that it reaches by a path; `above` are the
directories that it is inside of. A barred directory is itself what cannot be read. -/
def visit (tree : FileTree) : (depth : Nat) → Path → Location → (above : List Location) → List Visit
  | 0, _, _, _ => []
  | depth + 1, path, location, above =>
    if tree.isBarred location then [.unreadable path]
    else
      (tree.children location).flatMap fun (name, entry) =>
        let here := path.join name
        match tree.behind? here location (location :: above) name entry with
        | none => [.unreadable here]
        | some (place, isFile) =>
          if isHidden name then []
          else if isFile then [.file here]
          else visit tree depth here place (location :: above)

/-- A depth that no walk goes beyond: it meets no directory twice by links, and between two links it
goes down at most once for each entry. -/
def deepest (tree : FileTree) : Nat := (tree.entries.length + 2) * (tree.entries.length + 2)

/-- What a walk from a directory comes across. The directory itself may be hidden. -/
def walk (tree : FileTree) (root : Path) : List Visit :=
  match tree.resolve root with
  | .ok location => tree.visit tree.deepest root location []
  | .error _ => []

end FileTree

end Catalog.Files
