import Catalog.Media.Fingerprint

/-! Planes of the right shape. All that is read from a file has it, and so has every small copy. -/

namespace Catalog.Media

/-- There are as many rows as the height says, each as long as the width says. -/
def Shaped {α : Type} (width height : Nat) (rows : List (List α)) : Prop :=
  rows.length = height ∧ ∀ row ∈ rows, row.length = width

instance Shaped.decidable {α : Type} (width height : Nat) (rows : List (List α)) :
    Decidable (Shaped width height rows) :=
  inferInstanceAs (Decidable (_ ∧ _))

namespace Shaped

variable {α β γ : Type} {width height : Nat} {rows : List (List α)}

theorem map (h : Shaped width height rows) (f : α → β) :
    Shaped width height (rows.map fun row => row.map f) := by
  refine ⟨by rw [List.length_map, h.1], fun row hrow => ?_⟩
  obtain ⟨old, hold, rfl⟩ := List.mem_map.mp hrow
  rw [List.length_map, h.2 old hold]

theorem reverse (h : Shaped width height rows) : Shaped width height rows.reverse :=
  ⟨by rw [List.length_reverse, h.1], fun row hrow => h.2 row (List.mem_reverse.mp hrow)⟩

theorem zipWith {others : List β} (h : Shaped width height rows) (hothers : others.length = height)
    {f : List α → β → List γ} (hf : ∀ row ∈ rows, ∀ other ∈ others, (f row other).length = width) :
    Shaped width height (List.zipWith f rows others) := by
  refine ⟨by rw [List.length_zipWith, h.1, hothers, Nat.min_self], fun row hrow => ?_⟩
  obtain ⟨i, hi, rfl⟩ := List.mem_iff_getElem.mp hrow
  rw [List.getElem_zipWith]
  exact hf _ (List.getElem_mem _) _ (List.getElem_mem _)

/-- The value in a row stands in the joined rows after the rows before. -/
theorem getElem?_flatten (h : Shaped width height rows) {y x : Nat} (hx : x < width) :
    rows.flatten[width * y + x]? = rows[y]?.bind fun row => row[x]? := by
  obtain ⟨-, hrows⟩ := h
  induction rows generalizing y with
  | nil => simp
  | cons row rest ih =>
    have hrow := hrows row List.mem_cons_self
    rw [List.flatten_cons]
    cases y with
    | zero =>
      rw [List.getElem?_append_left (by omega)]
      simp
    | succ y =>
      have hplace : width * (y + 1) + x - row.length = width * y + x := by
        rw [hrow, Nat.mul_succ]
        omega
      rw [List.getElem?_append_right (by rw [hrow, Nat.mul_succ]; omega), hplace,
        ih fun other hother => hrows other (List.mem_cons_of_mem _ hother)]
      rfl

theorem length_flatten (h : Shaped width height rows) : rows.flatten.length = height * width := by
  obtain ⟨rfl, hrows⟩ := h
  induction rows with
  | nil => simp
  | cons row rest ih =>
    rw [List.flatten_cons, List.length_append, hrows row List.mem_cons_self,
      ih fun other hother => hrows other (List.mem_cons_of_mem _ hother), List.length_cons, Nat.succ_mul,
      Nat.add_comm]

end Shaped

/-! ### Planes -/

/-- The plane has the rows that its size says. -/
def Raster.WellFormed (plane : Raster) : Prop := Shaped plane.width plane.height plane.rows

instance Raster.WellFormed.decidable (plane : Raster) : Decidable plane.WellFormed :=
  inferInstanceAs (Decidable (Shaped _ _ _))

theorem shaped_rowsOf {width count : Nat} {values : List UInt8} (h : width * count ≤ values.length) :
    Shaped width count (rowsOf width count values) := by
  induction count generalizing values with
  | zero => exact ⟨rfl, fun row hrow => by cases hrow⟩
  | succ count ih =>
    rw [Nat.mul_succ] at h
    have hleft : width * count ≤ (values.drop width).length := by
      rw [List.length_drop]
      omega
    have hrest := ih hleft
    refine ⟨by rw [rowsOf, List.length_cons, hrest.1], fun row hrow => ?_⟩
    rcases List.mem_cons.mp hrow with rfl | hrow
    · rw [List.length_take]
      omega
    · exact hrest.2 row hrow

/-- A plane that is given value by value has its shape if there are enough of them. -/
theorem Raster.wellFormed_ofValues {width height : Nat} {values : List UInt8}
    (h : width * height ≤ values.length) : (Raster.ofValues width height values).WellFormed :=
  shaped_rowsOf h

theorem Raster.shaped_resize {plane : Raster} (h : plane.WellFormed) (width height : Nat) :
    Shaped width height (plane.resize width height).rows := by
  unfold Raster.resize
  split
  · rename_i hsame
    rw [← hsame.1, ← hsame.2]
    exact h
  · split
    · refine ⟨List.length_replicate, fun row hrow => ?_⟩
      rw [List.eq_of_mem_replicate hrow, List.length_replicate]
    · refine ⟨by simp [Scaling.windows], fun row hrow => ?_⟩
      obtain ⟨sums, -, rfl⟩ := List.mem_map.mp hrow
      simp [Scaling.windows]

/-! ### Bitmaps -/

/-- All three planes have their shape. -/
structure Bitmap.WellFormed (bitmap : Bitmap) : Prop where
  red : bitmap.red.WellFormed
  green : bitmap.green.WellFormed
  blue : bitmap.blue.WellFormed

namespace Bitmap

theorem length_pixels {count : Nat} {bytes : List UInt8} (h : bytes.length = 3 * count) :
    (pixels bytes).length = count := by
  induction count generalizing bytes with
  | zero =>
    obtain rfl := List.length_eq_zero_iff.mp h
    rfl
  | succ count ih =>
    obtain _ | ⟨b, _ | ⟨g, _ | ⟨r, rest⟩⟩⟩ := bytes
    · simp at h
    · simp at h
      omega
    · simp at h
      omega
    · simp only [List.length_cons] at h
      rw [pixels, List.length_cons, ih (by omega)]

theorem shaped_of_rows? {width count : Nat} {data : List UInt8}
    {rows : List (List (UInt8 × UInt8 × UInt8))} (h : rows? width count data = some rows) :
    Shaped width count rows := by
  induction count generalizing data rows with
  | zero =>
    cases h
    exact ⟨rfl, fun row hrow => by cases hrow⟩
  | succ count ih =>
    rw [rows?] at h
    split at h
    · cases h
    · rename_i hlong
      obtain ⟨rest, hrest, rfl⟩ := Option.map_eq_some_iff.mp h
      obtain ⟨hcount, hrows⟩ := ih hrest
      refine ⟨by rw [List.length_cons, hcount], fun row hrow => ?_⟩
      rcases List.mem_cons.mp hrow with rfl | hrow
      · apply length_pixels
        rw [List.length_take]
        omega
      · exact hrows row hrow

/-- Whatever file a bitmap is read from, its planes have their shape. -/
theorem wellFormed_of_read? {bytes : List UInt8} {bitmap : Bitmap} (h : read? bytes = some bitmap) :
    bitmap.WellFormed := by
  simp only [read?, Option.bind_eq_bind, Option.bind_eq_some_iff] at h
  obtain ⟨start, -, headerSize, -, width, -, height, -, depth, -, compression, -, h⟩ := h
  split at h
  · cases h
  · obtain ⟨rows, hrows, hbitmap⟩ := Option.bind_eq_some_iff.mp h
    cases hbitmap
    have hshaped := (shaped_of_rows? hrows).reverse
    exact ⟨hshaped.map _, hshaped.map _, hshaped.map _⟩

end Bitmap

/-! ### Images -/

namespace Image

/-- The planes of the image have their shape. -/
def WellFormed : Image → Prop
  | grey plane => plane.WellFormed
  | colour bitmap => bitmap.WellFormed

theorem shaped_thumbnail {image : Image} (h : image.WellFormed) (width height : Nat) :
    Shaped width height (image.thumbnail width height) := by
  cases image with
  | grey plane => exact Raster.shaped_resize h width height
  | colour bitmap =>
    have hred := Raster.shaped_resize h.red width height
    have hgreen := Raster.shaped_resize h.green width height
    have hblue := Raster.shaped_resize h.blue width height
    refine hred.zipWith (by rw [List.length_zip, hgreen.1, hblue.1, Nat.min_self]) ?_
    intro row hrow pair hpair
    obtain ⟨hfirst, hsecond⟩ := List.of_mem_zip hpair
    rw [List.length_zipWith, List.length_zip, hred.2 row hrow, hgreen.2 _ hfirst, hblue.2 _ hsecond,
      Nat.min_self, Nat.min_self]

end Image

end Catalog.Media
