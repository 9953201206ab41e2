import Catalog.Text.Blank
import Catalog.Text.Hex

/-! Perceptual hashes as bit strings, and their distance: the number of places in which two hashes of
one length differ. -/

namespace Catalog.Similarity

open Catalog.Text

/-- A hash: at least one byte, when it was read from text. -/
structure BitHash where
  bytes : List UInt8
deriving DecidableEq, Repr, Inhabited

/-- The number of ones among the eight bits of a byte. -/
def onesInByte (byte : UInt8) : Nat := (List.range 8).countP fun i => byte.toNat.testBit i

/-- The number of places in which byte strings of one length differ. -/
def differingBits : List UInt8 → List UInt8 → Nat
  | a :: as, b :: bs => onesInByte (a ^^^ b) + differingBits as bs
  | _, _ => 0

namespace BitHash

/-- Reads a hash from hexadecimal digits, blanks around them aside. -/
def read? (text : String) : Option BitHash :=
  match bytesOfHex? (trim text.toList) with
  | some (byte :: bytes) => some ⟨byte :: bytes⟩
  | _ => none

/-- The length of the hash in bits. -/
def bitLength (hash : BitHash) : Nat := 8 * hash.bytes.length

/-- The number of places in which the hashes differ, if they have one length. -/
def distance? (a b : BitHash) : Option Nat :=
  if a.bytes.length = b.bytes.length then some (differingBits a.bytes b.bytes) else none

end BitHash

/-- A stored hash of a file: its text, and the bits it stands for. -/
structure Entry where
  file : Int
  text : String
  hash : BitHash
deriving DecidableEq, Repr, Inhabited

namespace Entry

/-- The entry of a file with the given text, if that is a hash. -/
def read? (file : Int) (text : String) : Option Entry :=
  (BitHash.read? text).map fun hash => ⟨file, text, hash⟩

end Entry

/-- An entry found near a hash. -/
structure Hit where
  entry : Entry
  distance : Nat
deriving DecidableEq, Repr

end Catalog.Similarity
