import Catalog.Files.Tree
import Catalog.Json.Value
import Catalog.Media.Fingerprint
import Catalog.Media.Signature
import Catalog.Text.SmallLetters

/-! What is learned from a file before it is stored: a document with the category `file`, to which a
sidecar next to the file may add other categories, and the fingerprints of an image. Of image formats only
bitmaps of 24 bits are decoded. -/

namespace Catalog.Import

open Catalog.Files Catalog.Json Catalog.Text

/-- Why nothing can be learned from a file. -/
inductive JobError where
  /-- The path leads nowhere. -/
  | unreachable (path : Path)
  | unreadable (path : Path) (cause : FileError)
  | sidecarUnreadable (path : Path) (cause : FileError)
  | sidecarNotText (path : Path)
  | sidecarMalformed (path : Path)
deriving DecidableEq, Repr

/-- The message for a file from which nothing can be learned. -/
def JobError.message : JobError → String
  | .unreachable path => "Failed to stat " ++ path.quoted
  | .unreadable path cause => "Failed to read " ++ path.quoted ++ ": " ++ cause.message
  | .sidecarUnreadable path _ => "Failed to read sidecar " ++ path.quoted
  | .sidecarNotText path => "Failed to read sidecar " ++ path.quoted
  | .sidecarMalformed path => "Failed to parse sidecar " ++ path.quoted

/-- What is known of a file when it goes to the catalog. -/
structure Job where
  path : Path
  document : Value
  /-- The fingerprints of an image by their names. -/
  hashes : Option (List (String × String))

/-- The category that belongs to the file itself. -/
def ownCategory : String := "file"

/-- What the file itself says: its name, the extension in small letters, its size and media type. -/
def ownFields (path : Path) (content : Content) : Value :=
  .ofMembers
    [("name", .string ((path.fileName?.map RawText.text).getD "")),
     ("extension", .string ((path.extension?.map fun e => Text.smallLetters e.text).getD "")),
     ("size", .number (.integer content.size)),
     ("mime", .string (Media.typeOf content.bytes))]

/-- What the name of a sidecar has at its end. -/
def sidecarEnd : RawText := ".json"

/-- The path of the sidecar of a file. -/
def sidecarOf (path : Path) : Path := path ++ sidecarEnd

/-- The extension of a sidecar. -/
def sidecarExtension : RawText := "json"

/-- The file at the path is the sidecar of another one. -/
def isSidecar (files : FileTree) (path : Path) : Bool :=
  path.extension? == some sidecarExtension && path.withoutExtension?.any files.isFile

/-- The document of a file and its sidecar. The sidecar does not speak for the file itself, and says
nothing if it is no object. -/
def merged (own : Value) (sidecar : Value) : Value :=
  match sidecar with
  | .object members =>
    .ofMembers ((ownCategory, own) :: members.filter fun m => m.1 ≠ ownCategory)
  | _ => .ofMembers [(ownCategory, own)]

/-- What is said by the sidecar at a path. -/
def said (sidecar : Path) (content : Content) : Except JobError Value :=
  match content.read with
  | .error cause => .error (.sidecarUnreadable sidecar cause)
  | .ok bytes =>
    match Text.ofBytes? bytes with
    | none => .error (.sidecarNotText sidecar)
    | some text =>
      match Value.read? text with
      | none => .error (.sidecarMalformed sidecar)
      | some value => .ok value

/-- What the sidecar of a file says; null if there is none. -/
def readSidecar (files : FileTree) (path : Path) : Except JobError Value :=
  match files.stat (sidecarOf path) with
  | .ok (.file content _) => said (sidecarOf path) content
  | _ => .ok .null

/-- The extension tells that the file at the path is to be decoded as a bitmap. -/
def namesBitmap (path : Path) : Bool :=
  (path.extension?.bind RawText.text?).any fun extension =>
    Text.sameLetters extension.toList "bmp".toList

/-- The fingerprints of a file that is an image and can be decoded. The extension tells how to. -/
def imageHashes (path : Path) (content : Content) : Option (List (String × String)) :=
  if "image/".toList.isPrefixOf (Media.typeOf content.bytes).toList && namesBitmap path then
    (Media.Bitmap.read? content.bytes).map fun bitmap => Media.fingerprints (.colour bitmap)
  else none

/-- Learns what there is to learn from the file at a path. For the media type its first bytes are read. -/
def Job.ofPath (files : FileTree) (path : Path) : Except JobError Job :=
  match files.stat path with
  | .error _ => .error (.unreachable path)
  | .ok (.file content _) =>
    match content.readStart Media.sniffed with
    | .error cause => .error (.unreadable path cause)
    | .ok _ => do
      let sidecar ← readSidecar files path
      pure
        { path
          document := merged (ownFields path content) sidecar
          hashes := imageHashes path content }
  | .ok _ => .error (.unreadable path .isDirectory)

end Catalog.Import
