import Catalog.Order.Keyed
import Catalog.Proofs.Media.Raster
import Catalog.Proofs.Similarity.Distance
import Catalog.Proofs.Text.Blank
import Catalog.Proofs.Text.Hex
import Mathlib.Data.List.Induction

/-! What the bits of a fingerprint say. Each of the 64 bits is about one cell of a thumbnail, it stands in the
text where the cell stands in the thumbnail, and the distance of two fingerprints is the number of cells in
which the images differ. -/

namespace Catalog

open Catalog.Media Catalog.Order Catalog.Similarity Catalog.Text

/-! ### Binary digits -/

namespace Media

theorem ofBits_concat (bits : List Bool) (bit : Bool) :
    ofBits (bits ++ [bit]) = 2 * ofBits bits + bit.toNat := by
  rw [ofBits, List.foldl_append]
  rfl

theorem ofBits_lt (bits : List Bool) : ofBits bits < Nat.pow 2 bits.length := by
  induction bits using List.reverseRecOn with
  | nil => exact Nat.one_pos
  | append_singleton bits bit ih =>
    have hbit := bit.toNat_le
    have hpow : Nat.pow 2 (bits ++ [bit]).length = Nat.pow 2 bits.length * 2 := by
      rw [List.length_append]
      rfl
    rw [ofBits_concat, hpow]
    omega

/-- The digit at a place is the bit as far from the highest. -/
theorem getElem?_eq_testBit {bits : List Bool} {place : Nat} (h : place < bits.length) :
    bits[place]? = some ((ofBits bits).testBit (bits.length - 1 - place)) := by
  induction bits using List.reverseRecOn with
  | nil => cases h
  | append_singleton bits bit ih =>
    rw [List.length_append, List.length_singleton] at h
    rw [ofBits_concat, List.length_append, List.length_singleton, Nat.add_sub_cancel]
    by_cases hlast : place = bits.length
    · subst hlast
      rw [List.getElem?_concat_length]
      cases bit <;> simp [Nat.testBit_zero]
    · have hfront : place < bits.length := by omega
      have hnext : bits.length - place = bits.length - 1 - place + 1 := by omega
      have hhalf : (2 * ofBits bits + bit.toNat) / 2 = ofBits bits := by
        have hbit := bit.toNat_lt
        omega
      rw [List.getElem?_append_left hfront, ih hfront, hnext, Nat.testBit_succ, hhalf]

end Media

/-! ### Bits of a hash -/

namespace Similarity.BitHash

/-- The bits of bytes that write a number are those of the number. -/
theorem bitAt_bigEndian {count n place : Nat} (h : place < 8 * count) :
    bitAt ⟨bigEndian count n⟩ place = n.testBit (8 * count - 1 - place) := by
  induction count generalizing n with
  | zero => cases h
  | succ count ih =>
    rw [bitAt, bigEndian]
    by_cases hfront : place < 8 * count
    · have hbyte : place / 8 < (bigEndian count (n / 256)).length := by
        rw [length_bigEndian]
        omega
      have hplace : 8 * (count + 1) - 1 - place = 8 + (8 * count - 1 - place) := by omega
      have hhigher : n.testBit (8 + (8 * count - 1 - place)) = (n / 2 ^ 8).testBit (8 * count - 1 - place) := by
        rw [Nat.testBit_div_two_pow, Nat.add_comm]
      rw [List.getElem?_append_left hbyte, hplace, hhigher]
      exact ih hfront
    · have hbyte : place / 8 = (bigEndian count (n / 256)).length := by
        rw [length_bigEndian]
        omega
      have hplace : 8 * (count + 1) - 1 - place = 7 - place % 8 := by omega
      have hmod : (UInt8.ofNat (n % 256)).toNat = n % 2 ^ 8 := by
        rw [UInt8.toNat_ofNat']
        omega
      rw [hbyte, List.getElem?_concat_length, Option.getD_some, hmod, Nat.testBit_mod_two_pow, hplace]
      simp
      omega

end Similarity.BitHash

/-! ### Texts of fingerprints -/

namespace Media

section Bits

variable {bits others : List Bool}

theorem hexNumber?_fingerprintText (h : bits.length = 64) :
    hexNumber? (fingerprintText bits).toList = some (ofBits bits) := by
  have hlt := ofBits_lt bits
  rw [h] at hlt
  rw [fingerprintText, String.toList_ofList]
  exact hexNumber?_hexDigits hlt

theorem read?_fingerprintText (bits : List Bool) :
    BitHash.read? (fingerprintText bits) = some ⟨bigEndian 8 (ofBits bits)⟩ := by
  have htrimmed : Trimmed (hexDigits 16 (ofBits bits)) := .of_forall fun _ => isBlank_of_mem_hexDigits
  rw [BitHash.read?, fingerprintText, String.toList_ofList, htrimmed.trim_eq,
    bytesOfHex?_hexDigits 8 (ofBits bits)]
  rfl

theorem bitAt_fingerprint (h : bits.length = 64) {place : Nat} (hplace : place < 64) :
    some (BitHash.bitAt ⟨bigEndian 8 (ofBits bits)⟩ place) = bits[place]? := by
  rw [BitHash.bitAt_bigEndian hplace, getElem?_eq_testBit (h.symm ▸ hplace), h]

theorem distance?_fingerprints (h : bits.length = 64) (h' : others.length = 64) :
    BitHash.distance? ⟨bigEndian 8 (ofBits bits)⟩ ⟨bigEndian 8 (ofBits others)⟩ =
      some ((List.range 64).countP fun place => bits[place]? != others[place]?) := by
  rw [BitHash.distance?_eq_some_iff]
  refine ⟨by rw [BitHash.bitLength, BitHash.bitLength, length_bigEndian, length_bigEndian], ?_⟩
  refine List.countP_congr fun place hplace => ?_
  have hlt : place < 64 := List.mem_range.mp hplace
  rw [← bitAt_fingerprint h hlt, ← bitAt_fingerprint h' hlt]
  simp

end Bits

/-! ### Cells -/

/-- The places of eight rows of eight, row by row: first the row, then the column. -/
def cellPlaces : List (Nat × Nat) := (List.range 8).flatMap fun y => (List.range 8).map fun x => (y, x)

theorem cellPlaces_eq : cellPlaces = (List.range 64).map fun place => (place / 8, place % 8) := by decide

/-- The bits say of each cell, row by row, whether it has a property. -/
structure Shows (bits : List Bool) (property : Nat → Nat → Bool) : Prop where
  length : bits.length = 64
  bit : ∀ y < 8, ∀ x < 8, bits[8 * y + x]? = some (property y x)

namespace Shows

variable {bits others : List Bool} {property other : Nat → Nat → Bool}

theorem getElem? (h : Shows bits property) {place : Nat} (hplace : place < 64) :
    bits[place]? = some (property (place / 8) (place % 8)) := by
  rw [← h.bit (place / 8) (by omega) (place % 8) (by omega), Nat.div_add_mod]

theorem testBit (h : Shows bits property) {y x : Nat} (hy : y < 8) (hx : x < 8) :
    (ofBits bits).testBit (63 - (8 * y + x)) = property y x := by
  have hplace : 8 * y + x < bits.length := by
    rw [h.length]
    omega
  have hcell := h.bit y hy x hx
  rw [getElem?_eq_testBit hplace, h.length, Option.some.injEq] at hcell
  exact hcell

theorem countP_eq (h : Shows bits property) (h' : Shows others other) :
    (List.range 64).countP (fun place => bits[place]? != others[place]?) =
      cellPlaces.countP fun p => property p.1 p.2 != other p.1 p.2 := by
  rw [cellPlaces_eq, List.countP_map]
  refine List.countP_congr fun place hplace => ?_
  have hlt : place < 64 := List.mem_range.mp hplace
  rw [h.getElem? hlt, h'.getElem? hlt]
  simp

theorem eq_of_forall (h : Shows bits property) (h' : Shows others other)
    (hsame : ∀ p ∈ cellPlaces, property p.1 p.2 = other p.1 p.2) : bits = others := by
  refine List.ext_getElem? fun place => ?_
  by_cases hplace : place < 64
  · have hmem : (place / 8, place % 8) ∈ cellPlaces := by
      rw [cellPlaces_eq]
      exact List.mem_map.mpr ⟨place, List.mem_range.mpr hplace, rfl⟩
    rw [h.getElem? hplace, h'.getElem? hplace, hsame _ hmem]
  · rw [List.getElem?_eq_none (by rw [h.length]; omega), List.getElem?_eq_none (by rw [h'.length]; omega)]

end Shows

namespace Image

/-- The brightness of a cell of a thumbnail. -/
def cell (image : Image) (width height y x : Nat) : Nat :=
  (((image.thumbnail width height)[y]?.getD [])[x]?.getD 0).toNat

/-- The mean brightness of the 64 cells, rounded down. -/
def mean (image : Image) : Nat := total (cellPlaces.map fun p => image.cell 8 8 p.1 p.2) / 64

/-- The cell is brighter than the mean. -/
def isBrighter (image : Image) (y x : Nat) : Bool := decide (image.mean < image.cell 8 8 y x)

/-- The cell is brighter than its neighbour to the right. -/
def falls (image : Image) (y x : Nat) : Bool := decide (image.cell 9 8 y (x + 1) < image.cell 9 8 y x)

variable {image : Image}

theorem exists_cell (h : image.WellFormed) {width height y x : Nat} (hy : y < height) (hx : x < width) :
    ∃ row value, (image.thumbnail width height)[y]? = some row ∧ row.length = width ∧
      row[x]? = some value ∧ image.cell width height y x = value.toNat := by
  obtain ⟨hheight, hwidth⟩ := shaped_thumbnail h width height
  have hrow : y < (image.thumbnail width height).length := by rwa [hheight]
  have hlength := hwidth _ (List.getElem_mem hrow)
  have hvalue : x < (image.thumbnail width height)[y].length := by rwa [hlength]
  refine ⟨_, _, List.getElem?_eq_getElem hrow, hlength, List.getElem?_eq_getElem hvalue, ?_⟩
  rw [cell, List.getElem?_eq_getElem hrow, Option.getD_some, List.getElem?_eq_getElem hvalue,
    Option.getD_some]

theorem map_toNat_cells (h : image.WellFormed) :
    (image.thumbnail 8 8).flatten.map UInt8.toNat = cellPlaces.map fun p => image.cell 8 8 p.1 p.2 := by
  have hshaped := shaped_thumbnail h 8 8
  refine List.ext_getElem? fun place => ?_
  rw [List.getElem?_map, cellPlaces_eq, List.map_map, List.getElem?_map]
  by_cases hplace : place < 64
  · obtain ⟨row, value, hrow, -, hvalue, hcell⟩ :=
      exists_cell h (show place / 8 < 8 by omega) (show place % 8 < 8 by omega)
    have hflat : (image.thumbnail 8 8).flatten[place]? = some value := by
      rw [← Nat.div_add_mod place 8, hshaped.getElem?_flatten (by omega), hrow]
      exact hvalue
    rw [hflat, List.getElem?_range hplace, Option.map_some, Option.map_some, Function.comp_apply, hcell]
  · rw [List.getElem?_eq_none (by rw [hshaped.length_flatten]; omega),
      List.getElem?_eq_none (by rw [List.length_range]; omega)]
    rfl

theorem shows_brighterCells (h : image.WellFormed) : Shows (brighterCells image) image.isBrighter := by
  have hshaped := shaped_thumbnail h 8 8
  have hlength : (image.thumbnail 8 8).flatten.length = 64 := hshaped.length_flatten
  refine ⟨by rw [brighterCells, List.length_map, hlength], fun y hy x hx => ?_⟩
  obtain ⟨row, value, hrow, -, hvalue, hcell⟩ := exists_cell h hy hx
  rw [brighterCells, List.getElem?_map, hshaped.getElem?_flatten hx, hrow, Option.bind_some, hvalue,
    Option.map_some, map_toNat_cells h, hlength, isBrighter, mean, hcell]

theorem length_falling (row : List UInt8) : (falling row).length = row.length - 1 := by
  rw [falling, List.length_zipWith, List.length_drop, Nat.min_eq_right (Nat.sub_le _ _)]

theorem shows_fallingPairs (h : image.WellFormed) : Shows (fallingPairs image) image.falls := by
  have hshaped : Shaped 8 8 ((image.thumbnail 9 8).map falling) := by
    obtain ⟨hheight, hwidth⟩ := shaped_thumbnail h 9 8
    refine ⟨by rw [List.length_map, hheight], fun row hrow => ?_⟩
    obtain ⟨cells, hcells, rfl⟩ := List.mem_map.mp hrow
    rw [length_falling, hwidth cells hcells]
  rw [fallingPairs, List.flatMap_def]
  refine ⟨hshaped.length_flatten, fun y hy x hx => ?_⟩
  obtain ⟨row, left, hrow, -, hleft, hcell⟩ := exists_cell h hy (show x < 9 by omega)
  obtain ⟨row', right, hrow', -, hright, hnext⟩ := exists_cell h hy (show x + 1 < 9 by omega)
  obtain rfl : row = row' := Option.some.inj (hrow.symm.trans hrow')
  rw [hshaped.getElem?_flatten hx, List.getElem?_map, hrow, Option.map_some, Option.bind_some, falling,
    List.getElem?_zipWith, hleft, List.getElem?_drop, Nat.add_comm 1 x, hright, falls, hcell, hnext]
  rfl

end Image

/-! ### Fingerprints -/

namespace Image

/-- The names of the fingerprints that an image has. -/
def algorithms : List String := ["ahash", "dhash", "phash"]

/-- What a fingerprint says of a cell. -/
def cellBit (image : Image) (algorithm : String) : Nat → Nat → Bool :=
  if algorithm = "ahash" then image.isBrighter else image.falls

/-- The number of cells of which two images have different bits. -/
def differingCells (image other : Image) (algorithm : String) : Nat :=
  cellPlaces.countP fun p => image.cellBit algorithm p.1 p.2 != other.cellBit algorithm p.1 p.2

/-- The image has the text as a fingerprint, it is read as a hash, and the number in it has the bit of each
cell in its place. -/
structure Writes (image : Image) (algorithm text : String) (hash : BitHash) : Prop where
  stored : get? algorithm (fingerprints image) = some text
  read : BitHash.read? text = some hash
  length : hash.bitLength = 64
  number : ∃ n < Nat.pow 2 64, hexNumber? text.toList = some n ∧
    ∀ y < 8, ∀ x < 8, n.testBit (63 - (8 * y + x)) = image.cellBit algorithm y x

variable {image other : Image} {algorithm : String}

theorem exists_shows (h : image.WellFormed) (halgorithm : algorithm ∈ algorithms) :
    ∃ bits, get? algorithm (fingerprints image) = some (fingerprintText bits) ∧
      Shows bits (image.cellBit algorithm) := by
  simp only [algorithms, List.mem_cons, List.not_mem_nil, or_false] at halgorithm
  obtain rfl | rfl | rfl := halgorithm
  · exact ⟨brighterCells image, rfl, shows_brighterCells h⟩
  · exact ⟨fallingPairs image, rfl, shows_fallingPairs h⟩
  · exact ⟨fallingPairs image, rfl, shows_fallingPairs h⟩

theorem writes_of_shows {bits : List Bool}
    (hstored : get? algorithm (fingerprints image) = some (fingerprintText bits))
    (hbits : Shows bits (image.cellBit algorithm)) :
    image.Writes algorithm (fingerprintText bits) ⟨bigEndian 8 (ofBits bits)⟩ := by
  have hlt := ofBits_lt bits
  rw [hbits.length] at hlt
  refine ⟨hstored, read?_fingerprintText bits, by rw [BitHash.bitLength, length_bigEndian], ?_⟩
  exact ⟨ofBits bits, hlt, hexNumber?_fingerprintText hbits.length, fun y hy x hx => hbits.testBit hy hx⟩

/-- Two images have texts for each of their fingerprints, which are read as hashes of 64 bits. Their distance
is the number of cells in which the images differ, so that it is zero exactly if the texts are equal. -/
theorem distance_counts_differingCells (h : image.WellFormed) (h' : other.WellFormed)
    (halgorithm : algorithm ∈ algorithms) :
    ∃ text hash text' hash', image.Writes algorithm text hash ∧ other.Writes algorithm text' hash' ∧
      hash.distance? hash' = some (image.differingCells other algorithm) ∧
      (hash.distance? hash' = some 0 ↔ text = text') := by
  obtain ⟨bits, hstored, hbits⟩ := exists_shows h halgorithm
  obtain ⟨others, hstored', hothers⟩ := exists_shows h' halgorithm
  have hdistance := distance?_fingerprints hbits.length hothers.length
  rw [hbits.countP_eq hothers] at hdistance
  refine ⟨_, _, _, _, writes_of_shows hstored hbits, writes_of_shows hstored' hothers, hdistance, ?_⟩
  constructor
  · intro hzero
    rw [hdistance, Option.some.injEq, List.countP_eq_zero] at hzero
    have hsame := hbits.eq_of_forall hothers fun p hp => by simpa using hzero p hp
    rw [hsame]
  · intro htext
    have hnumber := hexNumber?_fingerprintText hbits.length
    rw [htext, hexNumber?_fingerprintText hothers.length, Option.some.injEq] at hnumber
    rw [hnumber, BitHash.distance?_eq_some_iff]
    exact ⟨rfl, by simp [BitHash.hamming]⟩

/-- A bright pixel in the first cell, and one in the last. -/
theorem distance_of_single_pixels :
    let image : Image := .grey (Raster.ofValues 8 8 (255 :: List.replicate 63 0))
    let other : Image := .grey (Raster.ofValues 8 8 (List.replicate 63 0 ++ [255]))
    (image.WellFormed ∧ other.WellFormed ∧ "ahash" ∈ algorithms) ∧
      ∃ text hash text' hash', image.Writes "ahash" text hash ∧ other.Writes "ahash" text' hash' ∧
        hash.distance? hash' = some 2 ∧ text ≠ text' := by
  intro image other
  have himage : image.WellFormed := Raster.wellFormed_ofValues (by decide)
  have hother : other.WellFormed := Raster.wellFormed_ofValues (by decide)
  have halgorithm : "ahash" ∈ algorithms := by decide
  obtain ⟨text, hash, text', hash', hwrites, hwrites', hdistance, hzero⟩ :=
    distance_counts_differingCells himage hother halgorithm
  have hcells : image.differingCells other "ahash" = 2 := by decide +kernel
  rw [hcells] at hdistance
  refine ⟨⟨himage, hother, halgorithm⟩, text, hash, text', hash', hwrites, hwrites', hdistance, ?_⟩
  rw [ne_eq, ← hzero, hdistance]
  decide

end Image

end Media

end Catalog
