/-! Why a file cannot be reached or read. -/

namespace Catalog.Files

/-- The causes for which an operation on a path fails. -/
inductive FileError where
  | missing
  /-- The device does not give the bytes. -/
  | faulty
  | denied
  | exists
  | notDirectory
  | isDirectory
  | tooManyLinks
  | zeroByte
deriving DecidableEq, Repr, Inhabited

/-- The system's words for a cause. -/
def FileError.message : FileError → String
  | .missing => "No such file or directory (os error 2)"
  | .faulty => "Input/output error (os error 5)"
  | .denied => "Permission denied (os error 13)"
  | .exists => "File exists (os error 17)"
  | .notDirectory => "Not a directory (os error 20)"
  | .isDirectory => "Is a directory (os error 21)"
  | .tooManyLinks => "Too many levels of symbolic links (os error 40)"
  | .zeroByte => "file name contained an unexpected NUL byte"

end Catalog.Files
