import Catalog.Command.Instant
import Catalog.Command.Run

/-! The program: it works on the files below the working directory. -/

namespace Catalog.Command

open Catalog.Files

/-- Loads what is in a directory and below it. A link stands for the file that it leads to; links to
directories are left out. -/
partial def load (place : Location) (found : Array IO.FS.DirEntry) : IO (List (Location × Entry)) := do
  let mut entries := []
  for item in found do
    let here := place ++ [(item.fileName : Name)]
    let metadata ← item.path.symlinkMetadata
    match metadata.type with
    | .dir => entries := entries ++ (here, .directory) :: (← load here (← item.path.readDir))
    | .other => pure ()
    | .file | .symlink =>
      if (← item.path.pathExists) && !(← item.path.isDir) then
        let bytes ← IO.FS.readBinFile item.path
        let time := (← item.path.metadata).modified
        let modified := time.sec * 1000000000 + time.nsec.toNat
        entries := entries ++ [(here, .file (.sound bytes.data.toList) modified)]
  pure entries

/-- Writes the entries that are not among the files as they were loaded. -/
def save (loaded files : FileTree) : IO Unit := do
  for (place, entry) in files.entries do
    if loaded.at? place ≠ some entry then
      let path := "/".intercalate (place.map Text.RawText.text)
      match entry with
      | .file content _ => IO.FS.writeBinFile path ⟨content.bytes.toArray⟩
      | .directory _ => IO.FS.createDirAll path
      | .link _ => pure ()

/-- The time in microseconds since the start of 1970: that of a file that is made now. -/
def now : IO Nat := do
  let (_, path) ← IO.FS.createTempFile
  let time := (← path.metadata).modified
  IO.FS.removeFile path
  pure (time.sec.toNat * 1000000 + time.nsec.toNat / 1000)

end Catalog.Command

open Catalog Catalog.Command in
/-- Runs the program and gives its status. -/
def main (arguments : List String) : IO UInt32 := do
  let entries ← load [] (← (← IO.currentDir).readDir)
  let loaded : Files.FileTree := ⟨Order.keyed entries⟩
  let start ← now
  let outcome := run loaded (fun n => readingAt (start + n)) arguments
  save loaded outcome.files
  (← IO.getStdout).putStr outcome.output
  (← IO.getStderr).putStr outcome.complaint
  pure (UInt32.ofNat outcome.status)
