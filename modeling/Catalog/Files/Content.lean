import Catalog.Files.Error

/-! What is in a file, so far as it can be read. -/

namespace Catalog.Files

/-- The bytes of a file. -/
inductive Content where
  /-- All of them can be read. -/
  | sound (bytes : List UInt8)
  /-- Reading fails after some of them, and so many more are out of reach. -/
  | broken (bytes : List UInt8) (lost : Nat) (cause : FileError)
deriving DecidableEq, Repr, Inhabited

namespace Content

/-- The bytes that can be read. -/
def bytes : Content → List UInt8
  | sound bytes => bytes
  | broken bytes _ _ => bytes

/-- The number of bytes, those out of reach included. -/
def size : Content → Nat
  | sound bytes => bytes.length
  | broken bytes lost _ => bytes.length + lost

/-- All bytes. -/
def read : Content → Except FileError (List UInt8)
  | sound bytes => .ok bytes
  | broken _ _ cause => .error cause

/-- The first bytes, at most so many. What comes after them need not be within reach. -/
def readStart (content : Content) (count : Nat) : Except FileError (List UInt8) :=
  match content with
  | sound bytes => .ok (bytes.take count)
  | broken bytes _ cause => if bytes.length < count then .error cause else .ok (bytes.take count)

end Content

end Catalog.Files
