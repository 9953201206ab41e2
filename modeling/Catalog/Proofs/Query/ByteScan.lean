import Catalog.Proofs.Query.Occurrence

/-! A query read by byte offsets: a mask of the quoted bytes, pieces between the offsets of separators,
and an operator that is looked for in capitals and taken from the text as it is. Every slice is at places
between characters, and what is read is what the characters say. -/

namespace Catalog.Query

open Catalog.Text

theorem Reading.ok_bind {α β : Type} {reading : Reading α} {value : α} (h : reading = .ok value)
    (next : α → Reading β) : reading >>= next = next value := by
  rw [h]
  rfl

/-! ### The mask -/

/-- The characters of a text with their offsets. -/
def placed : Nat → List Char → List (Nat × Char)
  | _, [] => []
  | offset, c :: rest => (offset, c) :: placed (offset + c.utf8Size) rest

/-- Sets the bytes from one offset to another. -/
def fill (mask : List Bool) (start stop : Nat) : Reading (List Bool) :=
  if start ≤ stop ∧ stop ≤ mask.length then
    .ok (mask.take start ++ List.replicate (stop - start) true ++ mask.drop stop)
  else .error stop

/-- Sets the bytes of quoted sections. A quote opens one where a value can start, up to the next such
quote; without one it is a character like any other. -/
def sweep (before : Option Char) (mask : List Bool) (chars : List (Nat × Char)) :
    Reading (List Bool) :=
  match chars with
  | [] => .ok mask
  | (offset, c) :: rest =>
    if isQuote c && startsValue before then
      match rest.findIdx? (·.2 == c) with
      | some k => do
        let close ← entryAt rest k
        let mask ← fill mask (offset + 1) close.1
        sweep (some c) mask (rest.drop (k + 1))
      | none => sweep (some c) mask rest
    else sweep (some c) mask rest
termination_by chars.length
decreasing_by all_goals simp only [List.length_cons, List.length_drop]; omega

/-- For each byte of a text whether it stands inside a quoted section, found by offsets. -/
def byteMask (text : List Char) : Reading (List Bool) :=
  sweep none (List.replicate (byteLength text) false) (placed 0 text)

variable {before : Option Char} {c : Char} {text rest inside after query : List Char}

theorem placed_append (offset : Nat) (text rest : List Char) :
    placed offset (text ++ rest) = placed offset text ++ placed (offset + byteLength text) rest := by
  induction text generalizing offset with
  | nil => rfl
  | cons c text ih =>
    rw [List.cons_append, placed, ih, Nat.add_assoc]
    rfl

theorem map_snd_placed (offset : Nat) (text : List Char) : (placed offset text).map (·.2) = text := by
  induction text generalizing offset with
  | nil => rfl
  | cons c text ih => rw [placed, List.map_cons, ih]

theorem length_placed (offset : Nat) (text : List Char) : (placed offset text).length = text.length := by
  rw [← List.length_map (fun place : Nat × Char => place.2), map_snd_placed]

theorem findIdx?_placed (offset : Nat) (text : List Char) (c : Char) :
    (placed offset text).findIdx? (·.2 == c) = text.findIdx? (· == c) := by
  induction text generalizing offset with
  | nil => rfl
  | cons d text ih => rw [placed, List.findIdx?_cons, List.findIdx?_cons, ih]

theorem findIdx?_eq_none_of_not_mem (h : c ∉ text) : text.findIdx? (· == c) = none := by
  rw [List.findIdx?_eq_none_iff]
  intro d hd
  simpa using ne_of_mem_of_not_mem hd h

theorem fill_section (front tail : List Bool) (n : Nat) :
    fill (front ++ List.replicate n false ++ tail) front.length (front.length + n) =
      .ok (front ++ List.replicate n true ++ tail) := by
  have hstop : (front ++ List.replicate n false).length = front.length + n := by simp
  rw [fill, if_pos (by simp), List.drop_left' hstop, Nat.add_sub_cancel_left, List.append_assoc front,
    List.take_left]

theorem utf8Size_of_isQuote (h : isQuote c) : c.utf8Size = 1 := by
  rcases eq_of_isQuote h with rfl | rfl <;> decide

theorem sweep_plain (h : ¬opens before c rest) (mask : List Bool) (offset : Nat) :
    sweep before mask (placed offset (c :: rest)) =
      sweep (some c) mask (placed (offset + c.utf8Size) rest) := by
  rw [placed, sweep, findIdx?_placed]
  split
  · rename_i hstarts
    rw [Bool.and_eq_true] at hstarts
    have hmem : c ∉ rest := fun hmem => h (opens_iff.mpr ⟨hstarts.1, hstarts.2, hmem⟩)
    rw [findIdx?_eq_none_of_not_mem hmem]
  · rfl

theorem sweep_section (hopens : opens before c (inside ++ c :: after)) (hinside : c ∉ inside)
    (mask : List Bool) (offset : Nat) :
    sweep before mask (placed offset (c :: (inside ++ c :: after))) =
      fill mask (offset + 1) (offset + 1 + byteLength inside) >>= fun mask =>
        sweep (some c) mask (placed (offset + 1 + byteLength inside + 1) after) := by
  obtain ⟨hquote, hstarts, -⟩ := opens_iff.mp hopens
  have hsize := utf8Size_of_isQuote hquote
  have hfind : (placed (offset + 1) (inside ++ c :: after)).findIdx? (·.2 == c) = some inside.length := by
    rw [findIdx?_placed, List.findIdx?_append, findIdx?_eq_none_of_not_mem hinside, List.findIdx?_cons]
    simp
  rw [placed, sweep, if_pos (by simp [hquote, hstarts]), hsize, hfind, placed_append, placed, hsize]
  dsimp only
  rw [Reading.ok_bind (entryAt_append _ (length_placed _ _)), ← List.drop_drop,
    List.drop_left' (length_placed _ _), List.drop_one, List.tail_cons]

/-- A section takes the bytes between its quotes, none of which it takes itself. -/
theorem bytewise_section (hopens : opens before c (inside ++ c :: after)) (hinside : c ∉ inside) :
    bytewise ((c :: (inside ++ c :: after)).zip (quotedFrom before none (c :: (inside ++ c :: after)))) =
      false :: (List.replicate (byteLength inside) true ++ false ::
        bytewise (after.zip (quotedFrom (some c) none after))) := by
  have hsize := utf8Size_of_isQuote (opens_iff.mp hopens).1
  rw [quotedFrom_cons, stepQuote, if_pos hopens, quotedFrom_inside hinside, quotedFrom_cons, stepQuote,
    if_pos rfl, List.zip_cons_cons, List.zip_append (by simp), List.zip_cons_cons, zip_map_const,
    bytewise_cons, bytewise_append, bytewise_cons, bytewise_map_const, hsize]
  simp

/-- Sweeping over a text sets the bytes of its sections and leaves what stands before it. -/
theorem sweep_placed (before : Option Char) (front : List Bool) (text : List Char) :
    sweep before (front ++ List.replicate (byteLength text) false) (placed front.length text) =
      .ok (front ++ bytewise (text.zip (quotedFrom before none text))) := by
  cases text with
  | nil => rw [placed, sweep]; rfl
  | cons c rest =>
    by_cases hopens : opens before c rest
    · obtain ⟨hquote, -, hmem⟩ := opens_iff.mp hopens
      obtain ⟨inside, after, rfl, hinside⟩ := List.eq_append_cons_of_mem hmem
      have hmask : front ++ List.replicate (byteLength (c :: (inside ++ c :: after))) false =
          (front ++ [false]) ++ List.replicate (byteLength inside) false ++
            (false :: List.replicate (byteLength after) false) := by
        rw [byteLength_cons, byteLength_append, byteLength_cons, utf8Size_of_isQuote hquote,
          Nat.add_comm 1]
        simp [← List.replicate_append_replicate, List.replicate_succ]
      have hfill := fill_section (front ++ [false]) (false :: List.replicate (byteLength after) false)
        (byteLength inside)
      have hnext := sweep_placed (some c)
        (front ++ [false] ++ List.replicate (byteLength inside) true ++ [false]) after
      have hlength : (front ++ [false] ++ List.replicate (byteLength inside) true ++ [false]).length =
          front.length + 1 + byteLength inside + 1 := by simp; omega
      rw [hlength] at hnext
      rw [List.length_append, List.length_singleton] at hfill
      rw [sweep_section hopens hinside, hmask, Reading.ok_bind hfill, bytewise_section hopens hinside]
      simpa using hnext
    · have hnext := sweep_placed (some c) (front ++ List.replicate c.utf8Size false) rest
      rw [List.append_assoc, List.replicate_append_replicate, List.length_append,
        List.length_replicate] at hnext
      rw [sweep_plain hopens, byteLength_cons, hnext, quotedFrom_cons, stepQuote, if_neg hopens,
        List.zip_cons_cons, bytewise_cons, List.append_assoc]
      rfl
termination_by text.length

theorem byteMask_eq (text : List Char) : byteMask text = .ok (quotedBytes text) :=
  sweep_placed none [] text

/-! ### Pieces between separators -/

/-- The offsets at which a text is found in another, each after the end of the one before. -/
def offsetsOf (needle : List Char) (offset : Nat) (text : List Char) : List Nat :=
  match text with
  | [] => []
  | c :: rest =>
    if needle.isPrefixOf (c :: rest) then
      offset :: offsetsOf needle (offset + byteLength needle) (rest.drop (needle.length - 1))
    else offsetsOf needle (offset + c.utf8Size) rest
termination_by text.length
decreasing_by all_goals simp only [List.length_cons, List.length_drop]; omega

/-- The clauses from an offset on, cut at the separators whose first byte is not quoted. -/
def piecesFrom (query : List Char) (mask : List Bool) (start : Nat) :
    List Nat → Reading (List (List Char))
  | [] => do
    let piece ← slice query start (byteLength query)
    pure [trim piece]
  | offset :: rest =>
    if offset < start then piecesFrom query mask start rest
    else do
      if ← entryAt mask offset then piecesFrom query mask start rest
      else
        let piece ← slice query start offset
        let pieces ← piecesFrom query mask (offset + byteLength separator) rest
        pure (trim piece :: pieces)

/-- The clauses of a query, read by offsets. -/
def clausesByOffset (query : List Char) : Reading (List (List Char)) :=
  if (trim query).isEmpty then .ok []
  else do
    let mask ← byteMask query
    piecesFrom query mask 0 (offsetsOf separator 0 query)

variable {needle front : List Char}

theorem offsetsOf_append (hne : needle ≠ []) (offset : Nat) (rest : List Char) :
    offsetsOf needle offset (needle ++ rest) =
      offset :: offsetsOf needle (offset + byteLength needle) rest := by
  obtain ⟨c, tail, rfl⟩ := List.exists_cons_of_ne_nil hne
  rw [List.cons_append, offsetsOf, if_pos]
  · rw [List.length_cons, Nat.add_sub_cancel, List.drop_left]
  · rw [List.isPrefixOf_iff_prefix]
    exact List.prefix_append (c :: tail) rest

theorem offsetsOf_cons (h : ¬needle <+: c :: rest) (offset : Nat) :
    offsetsOf needle offset (c :: rest) = offsetsOf needle (offset + c.utf8Size) rest := by
  rw [offsetsOf, if_neg (by rwa [List.isPrefixOf_iff_prefix])]

/-- The mark of a character in its place. -/
theorem exists_mark (h : query = front ++ c :: rest) :
    ∃ quoted, (marked query).drop front.length = (c, quoted) :: (marked query).drop (front ++ [c]).length := by
  obtain ⟨mark, marks, hmarks, rfl, -⟩ := List.map_eq_cons_iff.mp (map_fst_drop_marked h)
  refine ⟨mark.2, ?_⟩
  rw [List.length_append, ← List.drop_drop, hmarks]
  rfl

/-- The first byte of a character is marked as the character is. -/
theorem entryAt_quotedBytes {quoted : Bool} {marks : List (Char × Bool)} (h : query = front ++ c :: rest)
    (hmark : (marked query).drop front.length = (c, quoted) :: marks) :
    entryAt (quotedBytes query) (byteLength front) = .ok quoted := by
  obtain ⟨n, hn⟩ := Nat.exists_eq_add_one_of_ne_zero (Nat.ne_of_gt c.utf8Size_pos)
  rw [quotedBytes, ← List.take_append_drop front.length (marked query), hmark, bytewise_append,
    bytewise_cons]
  dsimp only
  rw [hn, List.replicate_succ]
  refine entryAt_append _ ?_
  rw [length_bytewise, List.map_take, map_fst_marked, h, List.take_left]

/-- The first byte of a piece without quotes is marked as the whole piece is. -/
theorem exists_plain_entry {piece : List Char} (h : query = front ++ piece ++ rest)
    (hpiece : ∀ c ∈ piece, ¬isQuote c) (hne : piece ≠ []) :
    ∃ quoted, (marked query).drop front.length =
        piece.map (·, quoted) ++ (marked query).drop (front ++ piece).length ∧
      entryAt (quotedBytes query) (byteLength front) = .ok quoted := by
  obtain ⟨quoted, hmarks⟩ := exists_plain_marks h hpiece
  obtain ⟨c, tail, rfl⟩ := List.exists_cons_of_ne_nil hne
  rw [List.append_assoc] at h
  exact ⟨quoted, hmarks, entryAt_quotedBytes h hmarks⟩

/-- Quoted characters are all in one segment. -/
theorem segmentsOf_quoted_append {marks : List (Char × Bool)} {segment : List Char}
    {others : List (List Char)} (h : segmentsOf marks = segment :: others) (text : List Char) :
    segmentsOf (text.map (·, true) ++ marks) = (text ++ segment) :: others := by
  induction text with
  | nil => exact h
  | cons c text ih =>
    refine segmentsOf_cons ?_ ih
    rintro ⟨a, n, d, e, rest, heq⟩
    cases heq

theorem segmentsOf_separator_append (marks : List (Char × Bool)) :
    segmentsOf (separator.map (·, false) ++ marks) = [] :: segmentsOf marks := rfl

/-- A character that no separator starts with goes on with the segment that it stands in. -/
theorem exists_segment_of_cons (h : query = front ++ c :: rest) (hseparator : ¬separator <+: c :: rest)
    {segment : List Char} {others : List (List Char)}
    (hsegments : segmentsOf ((marked query).drop front.length) = segment :: others) :
    ∃ tail, segment = c :: tail ∧
      segmentsOf ((marked query).drop (front ++ [c]).length) = tail :: others := by
  obtain ⟨quoted, hmarks⟩ := exists_mark h
  have hcut : ¬AtCut ((marked query).drop front.length) := by
    rintro ⟨a, n, d, e, more, heq⟩
    refine hseparator ⟨more.map (·.1), ?_⟩
    rw [← map_fst_drop_marked h, heq]
    rfl
  rw [hmarks] at hcut hsegments
  exact segmentsOf_of_cons hcut hsegments

/-- What happens at the offset of a separator, with `passed` between the start and it. -/
theorem piecesFrom_cons {passed : List Char} {quoted : Bool} (h : query = front ++ passed ++ rest)
    (hentry : entryAt (quotedBytes query) (byteLength (front ++ passed)) = .ok quoted)
    (offsets : List Nat) :
    piecesFrom query (quotedBytes query) (byteLength front) (byteLength (front ++ passed) :: offsets) =
      if quoted then piecesFrom query (quotedBytes query) (byteLength front) offsets
      else
        piecesFrom query (quotedBytes query) (byteLength (front ++ passed ++ separator)) offsets >>=
          fun pieces => pure (trim passed :: pieces) := by
  have hstart : ¬byteLength (front ++ passed) < byteLength front := by
    rw [byteLength_append]
    omega
  have hslice : slice query (byteLength front) (byteLength (front ++ passed)) = .ok passed := by
    rw [h]
    exact slice_append front passed rest
  rw [piecesFrom, if_neg hstart, Reading.ok_bind hentry, Reading.ok_bind hslice, byteLength_append _ separator]

/-- Between the start of a segment and the offset that is looked at stands what has been passed of the
segment. -/
theorem piecesFrom_offsetsOf (front passed rest : List Char) {segment : List Char}
    {others : List (List Char)} (hquery : query = front ++ passed ++ rest)
    (hsegments : segmentsOf ((marked query).drop (front ++ passed).length) = segment :: others) :
    piecesFrom query (quotedBytes query) (byteLength front)
        (offsetsOf separator (byteLength (front ++ passed)) rest) =
      .ok (trim (passed ++ segment) :: others.map trim) := by
  induction hn : rest.length using Nat.strongRecOn generalizing front passed rest segment others with
  | ind n ih =>
  by_cases hseparator : separator <+: rest
  · obtain ⟨more, rfl⟩ := hseparator
    have hshort : more.length < n := by
      rw [← hn, List.length_append]
      exact Nat.lt_add_of_pos_left (by decide)
    have hwhole : query = front ++ passed ++ separator ++ more := by rw [hquery, List.append_assoc _ separator]
    obtain ⟨quoted, hmarks, hentry⟩ :=
      exists_plain_entry hwhole not_isQuote_of_mem_separator (by decide)
    obtain ⟨next, others', hnext⟩ := List.exists_cons_of_ne_nil
      (segmentsOf_ne_nil ((marked query).drop (front ++ passed ++ separator).length))
    rw [offsetsOf_append (by decide), piecesFrom_cons hquery hentry, ← byteLength_append]
    rw [hmarks] at hsegments
    cases quoted with
    | true =>
      -- What is quoted is passed as a whole.
      rw [segmentsOf_quoted_append hnext, List.cons.injEq] at hsegments
      obtain ⟨rfl, rfl⟩ := hsegments
      have hrest := ih more.length hshort front (passed ++ separator) more
        (by rw [hwhole, List.append_assoc front]) (by rwa [← List.append_assoc]) rfl
      rw [if_pos rfl, List.append_assoc front, hrest, List.append_assoc passed]
    | false =>
      rw [segmentsOf_separator_append, List.cons.injEq] at hsegments
      obtain ⟨rfl, rfl⟩ := hsegments
      have hrest := ih more.length hshort (front ++ passed ++ separator) [] more
        (by rw [hwhole, List.append_nil]) (by rwa [List.append_nil]) rfl
      rw [List.append_nil] at hrest
      rw [if_neg (by decide), Reading.ok_bind hrest, hnext, List.append_nil]
      rfl
  · cases rest with
    | nil =>
      rw [List.map_eq_nil_iff.mp (map_fst_drop_marked hquery)] at hsegments
      cases hsegments
      have hslice : slice query (byteLength front) (byteLength query) = .ok passed := by
        rw [hquery, List.append_nil]
        exact slice_back front passed
      rw [offsetsOf, piecesFrom, Reading.ok_bind hslice, List.append_nil]
      rfl
    | cons c rest =>
      obtain ⟨segment, rfl, hnext⟩ := exists_segment_of_cons hquery hseparator hsegments
      rw [List.append_assoc front] at hnext
      have hrest := ih rest.length (by rw [← hn]; exact Nat.lt_succ_self _) front (passed ++ [c]) rest
        (by rw [hquery]; simp only [List.append_assoc, List.singleton_append]) hnext rfl
      rw [offsetsOf_cons hseparator, ← byteLength_singleton, ← byteLength_append, List.append_assoc front,
        hrest, List.append_assoc, List.singleton_append]

theorem clausesByOffset_eq (query : List Char) : clausesByOffset query = .ok (clauses query) := by
  rw [clausesByOffset, clauses]
  split
  · rfl
  · obtain ⟨segment, others, hsegments⟩ := List.exists_cons_of_ne_nil (segmentsOf_ne_nil (marked query))
    rw [Reading.ok_bind (byteMask_eq query)]
    refine (piecesFrom_offsetsOf [] [] query rfl hsegments).trans ?_
    rw [segments, hsegments]
    rfl

/-! ### Operators -/

/-- The byte is a blank of ASCII. -/
def isBlankByte (byte : UInt8) : Bool :=
  byte == 0x20 || byte == 0x09 || byte == 0x0a || byte == 0x0c || byte == 0x0d

/-- Blanks of ASCII are directly before one offset and after another. -/
def blanksAround (clause : List Char) (start stop : Nat) : Reading Bool :=
  if 0 < start ∧ stop < byteLength clause then do
    if isBlankByte (← entryAt (utf8 clause) (start - 1)) then
      pure (isBlankByte (← entryAt (utf8 clause) stop))
    else pure false
  else pure false

namespace Operator

/-- The operator counts at an offset where its letters stand: the byte there is not quoted, and the
bytes around a word are blanks. -/
def countsAt (op : Operator) (clause : List Char) (mask : List Bool) (offset : Nat) : Reading Bool := do
  if ← entryAt mask offset then pure false
  else if op.isWord then blanksAround clause offset (offset + byteLength op.symbol)
  else pure true

/-- The first of some offsets at which the operator counts. -/
def firstAmong (op : Operator) (clause : List Char) (mask : List Bool) : List Nat → Reading (Option Nat)
  | [] => pure none
  | offset :: rest => do
    if ← op.countsAt clause mask offset then pure (some offset)
    else op.firstAmong clause mask rest

end Operator

/-- The first operator of a list that counts anywhere in the clause, and its offsets. -/
def operatorAmong (clause : List Char) (mask : List Bool) :
    List Operator → Reading (Option (Nat × Nat × Operator))
  | [] => pure none
  | op :: others => do
    match ← op.firstAmong clause mask (offsetsOf op.symbol 0 (upper clause)) with
    | some offset => pure (some (offset, offset + byteLength op.symbol, op))
    | none => operatorAmong clause mask others

/-- The operator that splits a clause, with the offsets of its start and its end. -/
def operatorByOffset (clause : List Char) : Reading (Option (Nat × Nat × Operator)) := do
  let mask ← byteMask clause
  operatorAmong clause mask Operator.all

/-- The number is that of a blank of ASCII. -/
def IsBlankCode (n : Nat) : Prop := n = 0x20 ∨ n = 0x09 ∨ n = 0x0a ∨ n = 0x0c ∨ n = 0x0d

theorem isBlankByte_iff {byte : UInt8} : isBlankByte byte ↔ IsBlankCode byte.toNat := by
  simp [isBlankByte, IsBlankCode, ← UInt8.toNat_inj, or_assoc]

theorem isAsciiBlank_iff : isAsciiBlank c ↔ IsBlankCode c.toNat := by
  simp [isAsciiBlank, IsBlankCode, ← Char.toNat_inj, or_assoc]

/-- Any byte of a character tells whether the character is a blank of ASCII. -/
theorem isBlankByte_of_mem {byte : UInt8} (h : byte ∈ String.utf8EncodeChar c) :
    isBlankByte byte = isAsciiBlank c := by
  rw [Bool.eq_iff_iff, isBlankByte_iff, isAsciiBlank_iff]
  rcases toNat_of_mem_utf8EncodeChar h with heq | ⟨hc, hbyte⟩
  · rw [heq]
  · unfold IsBlankCode
    omega

theorem blanksAround_eq {clause left middle right : List Char} (h : clause = left ++ middle ++ right) :
    blanksAround clause (byteLength left) (byteLength (left ++ middle)) =
      .ok (left.getLast?.any isAsciiBlank && right.head?.any isAsciiBlank) := by
  obtain rfl | ⟨front, first, rfl⟩ := List.eq_nil_or_concat' left
  · rw [blanksAround, if_neg (by simp)]
    rfl
  cases right with
  | nil =>
    rw [h, List.append_nil, blanksAround, if_neg (by simp), List.head?_nil, Option.any_none, Bool.and_false]
    rfl
  | cons last back =>
    have hfirst := first.utf8Size_pos
    have hlast := last.utf8Size_pos
    have hinner : 0 < byteLength (front ++ [first]) ∧
        byteLength (front ++ [first] ++ middle) < byteLength clause := by
      rw [h, byteLength_append _ (last :: back), byteLength_append front]
      simp only [byteLength_cons]
      omega
    obtain ⟨byte, hbyte, hbefore⟩ : ∃ byte ∈ String.utf8EncodeChar first,
        entryAt (utf8 clause) (byteLength (front ++ [first]) - 1) = .ok byte := by
      rw [h, List.append_assoc, List.append_assoc, List.singleton_append]
      refine exists_byte ?_ ?_ <;> rw [byteLength_append, byteLength_singleton] <;> omega
    obtain ⟨byte', hbyte', hafter⟩ : ∃ byte ∈ String.utf8EncodeChar last,
        entryAt (utf8 clause) (byteLength (front ++ [first] ++ middle)) = .ok byte := by
      rw [h]
      refine exists_byte (Nat.le_refl _) ?_
      rw [byteLength_append _ [last], byteLength_singleton]
      omega
    rw [blanksAround, if_pos hinner, Reading.ok_bind hbefore, isBlankByte_of_mem hbyte,
      Reading.ok_bind hafter, isBlankByte_of_mem hbyte', List.getLast?_concat, List.head?_cons,
      Option.any_some, Option.any_some]
    cases isAsciiBlank first <;> rfl

namespace Operator

variable {op : Operator} {clause left written right : List Char} {quoted : Bool}
  {marks : List (Char × Bool)}

theorem exists_written {text : List Char} (h : op.symbol <+: upper text) :
    ∃ written right, text = written ++ right ∧ upper written = op.symbol := by
  refine ⟨text.take op.symbol.length, text.drop op.symbol.length, (List.take_append_drop _ _).symm, ?_⟩
  rw [upper, List.map_take, ← upper, ← List.prefix_iff_eq_take.mp h]

theorem standsAt_of_not_prefix {text : List Char} (h : ¬op.symbol <+: upper text)
    (before : Option Char) : op.standsAt before text = false := by
  by_contra hstands
  rw [Bool.not_eq_false] at hstands
  have htake := upper_take_of_standsAt hstands
  rw [upper, List.map_take, ← upper] at htake
  exact h (htake ▸ List.take_prefix _ _)

/-- The first letter of an operator is not in the rest of it. -/
theorem exists_first (op : Operator) : ∃ first others, op.symbol = first :: others ∧ first ∉ others := by
  cases op <;> exact ⟨_, _, rfl, by decide⟩

theorem findFrom?_others {first : Char} {others : List Char} (hsymbol : op.symbol = first :: others)
    (hfirst : first ∉ others) {text : List Char} (htext : ∀ c ∈ text, c.toUpper ∈ others)
    (before : Option Char) :
    op.findFrom? before (text.map (·, quoted) ++ marks) =
      (op.findFrom? (lastFrom before text) marks).map (text ++ ·) := by
  induction text generalizing before with
  | nil => simp [lastFrom]
  | cons c text ih =>
    have hstands : op.standsAt before (c :: (text.map (·, quoted) ++ marks).map (·.1)) = false := by
      refine standsAt_of_not_prefix (fun hstart => ?_) before
      rw [hsymbol, upper, List.map_cons, List.cons_prefix_cons] at hstart
      exact hfirst (hstart.1 ▸ htext c List.mem_cons_self)
    rw [List.map_cons, List.cons_append, findFrom?_skip (.inr hstands),
      ih fun d hd => htext d (List.mem_cons_of_mem _ hd), Option.map_map]
    rfl

/-- No operator starts inside of another one of its kind. -/
theorem findFrom?_written (hspelled : upper written = op.symbol) (before : Option Char)
    (h : quoted ∨ op.standsAt before (written ++ marks.map (·.1)) = false) :
    op.findFrom? before (written.map (·, quoted) ++ marks) =
      (op.findFrom? (lastFrom before written) marks).map (written ++ ·) := by
  obtain ⟨first, others, hsymbol, hfirst⟩ := op.exists_first
  obtain ⟨c, tail, rfl⟩ := exists_cons_of_spelled hspelled
  rw [upper, List.map_cons, hsymbol, List.cons.injEq] at hspelled
  have hskip : quoted ∨ op.standsAt before (c :: (tail.map (·, quoted) ++ marks).map (·.1)) = false := by
    simpa [Function.comp_def] using h
  rw [List.map_cons, List.cons_append, findFrom?_skip hskip,
    findFrom?_others hsymbol hfirst fun d hd => hspelled.2 ▸ List.mem_map_of_mem hd, Option.map_map]
  rfl

/-- An operator counts at an offset where it stands. -/
theorem countsAt_eq (hclause : clause = left ++ written ++ right) (hspelled : upper written = op.symbol)
    (hentry : entryAt (quotedBytes clause) (byteLength left) = .ok quoted) :
    op.countsAt clause (quotedBytes clause) (byteLength left) =
      .ok (!quoted && op.standsAt left.getLast? (written ++ right)) := by
  rw [countsAt, Reading.ok_bind hentry]
  cases quoted with
  | true => rfl
  | false =>
    rw [if_neg (by decide), Bool.not_false, Bool.true_and]
    cases hop : op.isWord with
    | true =>
      rw [if_pos rfl, standsAt_of_isWord hspelled hop, ← hspelled, byteLength_upper, ← byteLength_append,
        blanksAround_eq hclause]
    | false =>
      rw [if_neg (by decide), standsAt_of_not_isWord hspelled hop]
      rfl

theorem findFrom?_here {before : Option Char} (hspelled : upper written = op.symbol)
    (h : (!quoted && op.standsAt before (written ++ marks.map (·.1))) = true) :
    op.findFrom? before (written.map (·, quoted) ++ marks) = some [] := by
  obtain ⟨c, tail, rfl⟩ := exists_cons_of_spelled hspelled
  rw [List.map_cons, List.cons_append, findFrom?_cons, if_pos]
  simpa [Function.comp_def] using h

/-- The first offset at which the operator counts is where it is found. -/
theorem firstAmong_offsetsOf (left rest : List Char) (hclause : clause = left ++ rest) :
    op.firstAmong clause (quotedBytes clause) (offsetsOf op.symbol (byteLength left) (upper rest)) =
      .ok ((op.findFrom? left.getLast? ((marked clause).drop left.length)).map fun more =>
        byteLength (left ++ more)) := by
  induction hn : rest.length using Nat.strongRecOn generalizing left rest with
  | ind n ih =>
  by_cases hsymbol : op.symbol <+: upper rest
  · obtain ⟨written, right, rfl, hspelled⟩ := exists_written hsymbol
    rw [← List.append_assoc] at hclause
    have hne : written ≠ [] := by
      obtain ⟨c, tail, rfl⟩ := exists_cons_of_spelled hspelled
      simp
    obtain ⟨quoted, hmarks, hentry⟩ :=
      exists_plain_entry hclause (not_isQuote_of_mem_word hspelled) hne
    have hright := map_fst_drop_marked hclause
    rw [upper, List.map_append, ← upper, hspelled, ← upper, offsetsOf_append op.symbol_ne_nil, firstAmong,
      Reading.ok_bind (countsAt_eq hclause hspelled hentry), hmarks, ← hright]
    cases hcounts : !quoted && op.standsAt left.getLast?
        (written ++ ((marked clause).drop (left ++ written).length).map (·.1)) with
    | true =>
      rw [findFrom?_here hspelled hcounts, if_pos rfl, Option.map_some, List.append_nil]
      rfl
    | false =>
      have hshort : right.length < n := by
        rw [← hn, List.length_append]
        exact Nat.lt_add_of_pos_left (List.length_pos_iff.mpr hne)
      have hskip : quoted ∨ op.standsAt left.getLast?
          (written ++ ((marked clause).drop (left ++ written).length).map (·.1)) = false := by
        simpa using Bool.and_eq_false_iff.mp hcounts
      have hrest := ih right.length hshort (left ++ written) right hclause rfl
      rw [findFrom?_written hspelled _ hskip, if_neg (by decide), hright, ← hspelled, byteLength_upper,
        ← byteLength_append, hspelled, hrest, Option.map_map, lastFrom_eq, List.getLast?_append]
      simp only [Function.comp_def, List.append_assoc]
  · cases rest with
    | nil =>
      rw [List.map_eq_nil_iff.mp (map_fst_drop_marked hclause), upper, List.map_nil, offsetsOf]
      rfl
    | cons c rest =>
      obtain ⟨quoted, hmarks⟩ := exists_mark hclause
      have hpassed : clause = left ++ [c] ++ rest := by
        rw [hclause, List.append_assoc, List.singleton_append]
      have hstands : op.standsAt left.getLast?
          (c :: ((marked clause).drop (left ++ [c]).length).map (·.1)) = false := by
        rw [map_fst_drop_marked hpassed]
        exact standsAt_of_not_prefix hsymbol _
      have hrest := ih rest.length (by rw [← hn]; exact Nat.lt_succ_self _) (left ++ [c]) rest
        hpassed rfl
      rw [upper, List.map_cons] at hsymbol
      rw [hmarks, findFrom?_skip (.inr hstands), upper, List.map_cons, offsetsOf_cons hsymbol,
        utf8Size_toUpper, ← byteLength_singleton, ← byteLength_append, ← upper, hrest, Option.map_map,
        List.getLast?_concat]
      simp only [Function.comp_def, List.append_assoc, List.singleton_append]

end Operator

theorem operatorAmong_eq (clause : List Char) (ops : List Operator) :
    operatorAmong clause (quotedBytes clause) ops =
      .ok (ops.findSome? fun op => (op.findFrom? none (marked clause)).map fun left =>
        (byteLength left, byteLength left + byteLength op.symbol, op)) := by
  induction ops with
  | nil => rfl
  | cons op ops ih =>
    have hfirst := op.firstAmong_offsetsOf [] clause rfl
    rw [operatorAmong, List.findSome?_cons]
    refine (Reading.ok_bind hfirst _).trans ?_
    cases hfind : op.findFrom? none (marked clause) with
    | none =>
      simp [hfind, ih]
    | some left =>
      simp [hfind]
      rfl

theorem operatorByOffset_eq (clause : List Char) :
    operatorByOffset clause =
      .ok ((Split.ofClause? clause).map fun split => (split.start, split.stop, split.op)) := by
  rw [operatorByOffset, Reading.ok_bind (byteMask_eq clause), operatorAmong_eq, Split.ofClause?,
    List.map_findSome?]
  simp [Function.comp_def]
  rfl

end Catalog.Query
