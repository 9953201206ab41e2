import Mathlib.Data.List.Perm.Subperm
import Catalog.Proofs.Json.Strings
import Catalog.Proofs.Store.Deposits
import Catalog.Proofs.Store.Repetition

/-! Favorites over a run. As long as the clock goes forward they are listed by the times at which they
became favorites, the latest first, each with what was last said of it. -/

namespace Catalog

open Catalog.Files Catalog.Order

theorem FavoriteRow.arranges_precedes : Arranges FavoriteRow.precedes :=
  arranges_latest FavoriteRow.added FavoriteRow.file

/-! ### What is said of favorites -/

/-- Something that is said of a favorite, when, and whether the file became one by that. -/
structure Mark where
  id : FileId
  now : Timestamp
  notes : Option String
  tags : List String
  turnsOn : Bool
deriving DecidableEq, Repr

def Step.mark? (store : Store) : Step → Option Mark
  | upsert files now path document hashes favorite =>
    favorite.bind fun input =>
      ((upsert files now path document hashes favorite).deposit? store).map fun deposit =>
        ⟨deposit.id, deposit.now, input.notes, input.tags, !store.isFavorite deposit.id⟩
  | toggleFavorite now id notes tags =>
    if (store.toggleFavorite now id notes tags).2 = .ok true then
      some ⟨id, now, notes, tags, !store.isFavorite id⟩
    else none
  | _ => none

/-- The reading of the clock under which a step puts something down. -/
def Step.reading? (store : Store) : Step → Option Timestamp
  | toggleFavorite now id notes tags =>
    if (store.toggleFavorite now id notes tags).2 = .ok true then some now else none
  | step => (step.deposit? store).map (·.now)

/-- What steps say of favorites, one after the other, the newest first. -/
def Store.marksBy (store : Store) : List Step → List Mark
  | [] => []
  | step :: rest => (step.run store).marksBy rest ++ (step.mark? store).toList

/-- The readings of the clock of steps, one after the other, the newest first. -/
def Store.readingsBy (store : Store) : List Step → List Timestamp
  | [] => []
  | step :: rest => (step.run store).readingsBy rest ++ (step.reading? store).toList

def latestMark? (log : List Mark) (id : FileId) : Option Mark := log.find? fun mark => mark.id == id

/-- The latest mark by which the file became a favorite. -/
def latestTurn? (log : List Mark) (id : FileId) : Option Mark :=
  log.find? fun mark => mark.id == id && mark.turnsOn

variable {log : List Mark} {mark other : Mark} {id : FileId} {readings : List Timestamp}

theorem latestMark?_cons_of_ne (h : mark.id ≠ id) :
    latestMark? (mark :: log) id = latestMark? log id := by
  rw [latestMark?, List.find?_cons_of_neg (by simpa using h)]
  rfl

theorem latestTurn?_cons_of_ne (h : mark.id ≠ id) :
    latestTurn? (mark :: log) id = latestTurn? log id := by
  rw [latestTurn?, List.find?_cons_of_neg (by simp [h])]
  rfl

theorem latestMark?_cons_self : latestMark? (mark :: log) mark.id = some mark := by
  rw [latestMark?, List.find?_cons_of_pos (by simp)]

theorem latestTurn?_cons_of_turnsOn (h : mark.turnsOn = true) :
    latestTurn? (mark :: log) mark.id = some mark := by
  rw [latestTurn?, List.find?_cons_of_pos (by simp [h])]

theorem latestTurn?_cons_of_not_turnsOn (h : mark.turnsOn = false) :
    latestTurn? (mark :: log) id = latestTurn? log id := by
  rw [latestTurn?, List.find?_cons_of_neg (by simp [h])]
  rfl

/-! ### Rows -/

/-- The row has the time at which its file became a favorite, and what was last said of it. -/
structure NotedRow (log : List Mark) (row : FavoriteRow) : Prop where
  since : (latestTurn? log row.file).map (·.now) = some row.added
  notes : (latestMark? log row.file).map (·.notes) = some row.notes
  tags : (latestMark? log row.file).map (fun mark => tagsText mark.tags) = some row.tags

theorem NotedRow.cons_of_ne {row : FavoriteRow} (h : NotedRow log row) (hne : mark.id ≠ row.file) :
    NotedRow (mark :: log) row where
  since := (congrArg _ (latestTurn?_cons_of_ne hne)).trans h.since
  notes := (congrArg _ (latestMark?_cons_of_ne hne)).trans h.notes
  tags := (congrArg _ (latestMark?_cons_of_ne hne)).trans h.tags

/-- What is said of a favorite replaces what was said before, and its time stays; a new one has the time
of the clock. -/
theorem notedRow_of_mem_notedRows {rows : List FavoriteRow} (h : ∀ row ∈ rows, NotedRow log row)
    (hturns : mark.turnsOn = !(rows.any fun row => row.file == mark.id)) :
    ∀ row ∈ notedRows mark.id mark.now ⟨mark.notes, mark.tags⟩ rows, NotedRow (mark :: log) row := by
  intro row hrow
  unfold notedRows at hrow
  split at hrow
  · rename_i hnoted
    rw [hnoted] at hturns
    obtain ⟨old, hold, rfl⟩ := List.mem_map.mp hrow
    by_cases hfile : old.file = mark.id
    · rw [if_pos (beq_iff_eq.mpr hfile)]
      have hmark : latestMark? (mark :: log) old.file = some mark := hfile ▸ latestMark?_cons_self
      constructor
      case since =>
        exact (congrArg _ (latestTurn?_cons_of_not_turnsOn hturns)).trans (h old hold).since
      case notes => exact congrArg (Option.map (·.notes)) hmark
      case tags => exact congrArg (Option.map fun mark => tagsText mark.tags) hmark
    · rw [if_neg (by simpa using hfile)]
      exact (h old hold).cons_of_ne (Ne.symm hfile)
  · rename_i hnone
    rw [Bool.not_eq_true] at hnone
    rw [hnone] at hturns
    rcases List.mem_append.mp hrow with hold | hnew
    · refine (h row hold).cons_of_ne fun hfile => ?_
      have hno := List.any_eq_false.mp hnone row hold
      rw [← hfile] at hno
      simp at hno
    · rw [List.mem_singleton.mp hnew]
      exact ⟨congrArg (Option.map (·.now)) (latestTurn?_cons_of_turnsOn hturns),
        congrArg (Option.map (·.notes)) latestMark?_cons_self,
        congrArg (Option.map fun mark => tagsText mark.tags) latestMark?_cons_self⟩

namespace Tables

variable {tables tables' : Tables} {now : Timestamp} {path : String} {seen : Observation}
  {extracted : Extracted} {hashes : Option (List (String × String))}
  {favorite : Option FavoriteInput} {input : FavoriteInput} {rows : List FavoriteRow}

/-- Of the rows of favorites an upsert only notes what is said of its file. -/
theorem upsert_favorites
    (h : tables.upsert now path seen extracted hashes favorite = .ok (tables', id)) :
    ∃ stored time, Stored tables now path seen extracted stored id time ∧
      tables'.ledger = stored.ledger ∧
        (favorite = none ∧ tables'.favorites = tables.favorites ∨
          ∃ input rows, favorite = some input ∧ tables.favorites = some rows ∧
            tables'.favorites = some (notedRows id time input rows)) := by
  obtain ⟨stored, time, marked, hstored, hhashes, hfavorite⟩ := upsert_ok h
  have hmarked : marked.ledger = stored.ledger ∧ marked.favorites = tables.favorites := by
    rw [← hstored.hashes_eq.2]
    rcases hhashes with ⟨-, rfl⟩ | ⟨given, -, hput⟩
    · exact ⟨rfl, rfl⟩
    · obtain ⟨rows, -, rfl⟩ := putHashes_ok hput
      exact ⟨rfl, rfl⟩
  refine ⟨stored, time, hstored, ?_⟩
  rcases hfavorite with ⟨hnone, rfl⟩ | ⟨input, hinput, hset⟩
  · exact ⟨hmarked.1, .inl ⟨hnone, hmarked.2⟩⟩
  · obtain ⟨rows, hrows, -⟩ := setFavorite_ok hset
    rw [setFavorite_eq hrows] at hset
    cases hset
    exact ⟨hmarked.1, .inr ⟨input, rows, hinput, hmarked.2.symm.trans hrows, rfl⟩⟩

theorem id_of_file? {file : FileRecord} (h : tables.file? id = some file) : file.id = id := by
  simpa using List.find?_some h

theorem toggleFavorite_off (hfile : (tables.file? id).isSome) (hrows : tables.favorites = some rows)
    (hon : (rows.any fun row => row.file == id) = true) (input : FavoriteInput) (now : Timestamp) :
    tables.toggleFavorite id input now =
      .ok ({ tables with favorites := some (rows.filter fun row => row.file != id) }, false) := by
  have hknown : ¬((tables.file? id).isNone = true) := by
    simpa [Option.isSome_iff_ne_none] using hfile
  rw [toggleFavorite, if_neg hknown, hrows]
  simp only [need, bind, Except.bind]
  rw [if_pos hon]
  rfl

theorem toggleFavorite_on (hfile : (tables.file? id).isSome) (hrows : tables.favorites = some rows)
    (hoff : (rows.any fun row => row.file == id) = false) (input : FavoriteInput)
    (now : Timestamp) :
    tables.toggleFavorite id input now =
      .ok ({ tables with favorites := some (notedRows id now input rows) }, true) := by
  have hknown : ¬((tables.file? id).isNone = true) := by
    simpa [Option.isSome_iff_ne_none] using hfile
  rw [toggleFavorite, if_neg hknown, hrows]
  simp only [need, bind, Except.bind]
  rw [if_neg (by simp [hoff]), setFavorite_eq hrows]
  rfl

end Tables

/-! ### Runs -/

namespace Store

variable {store store' : Store}

/-- The rows of favorites are there and as they should be, and whatever has a time has it from the clock,
which went forward. -/
structure Noted (store : Store) (readings : List Timestamp) (log : List Mark) : Prop where
  there : ∃ rows, store.tables.favorites = some rows
  rows : ∀ row ∈ store.tables.favorites.getD [], NotedRow log row
  entries : ∀ entry ∈ store.tables.ledger.getD [], entry.recorded ∈ readings
  marks : ∀ mark ∈ log, mark.now ∈ readings
  clock : log.Pairwise fun mark earlier => earlier.now < mark.now

theorem isFavorite_eq_any {rows : List FavoriteRow} (h : store.tables.favorites = some rows)
    (id : FileId) : store.isFavorite id = rows.any fun row => row.file == id := by
  rw [isFavorite, Tables.isFavorite, h, Option.getD_some]

/-- A step that says nothing leaves marks as they are, takes rows away at most, and dates no entry. -/
theorem Noted.of_subset (h : store.Noted readings log)
    (hthere : ∃ rows, store'.tables.favorites = some rows)
    (hrows : ∀ row ∈ store'.tables.favorites.getD [], row ∈ store.tables.favorites.getD [])
    (hentries : ∀ entry ∈ store'.tables.ledger.getD [], entry ∈ store.tables.ledger.getD []) :
    store'.Noted readings log :=
  ⟨hthere, fun row hrow => h.rows row (hrows row hrow),
    fun entry hentry => h.entries entry (hentries entry hentry), h.marks, h.clock⟩

/-- What is said under a later reading than all before it. -/
theorem Noted.marked (h : store.Noted readings log) (mark : Mark) {rows : List FavoriteRow}
    (hrows : store.tables.favorites = some rows)
    (hturns : mark.turnsOn = !(rows.any fun row => row.file == mark.id))
    (hlater : ∀ earlier ∈ readings, earlier < mark.now)
    (hnoted : store'.tables.favorites =
      some (notedRows mark.id mark.now ⟨mark.notes, mark.tags⟩ rows))
    (hentries : ∀ entry ∈ store'.tables.ledger.getD [], entry.recorded ∈ mark.now :: readings) :
    store'.Noted (mark.now :: readings) (mark :: log) where
  there := ⟨_, hnoted⟩
  rows := by
    have hbefore := h.rows
    rw [hrows, Option.getD_some] at hbefore
    rw [hnoted, Option.getD_some]
    exact notedRow_of_mem_notedRows hbefore hturns
  entries := hentries
  marks other hother := by
    rcases List.mem_cons.mp hother with rfl | hold
    · exact List.mem_cons_self
    · exact List.mem_cons_of_mem _ (h.marks other hold)
  clock := List.pairwise_cons.mpr ⟨fun other hother => hlater _ (h.marks other hother), h.clock⟩

theorem Noted.upsert {files : FileTree} {now : Timestamp} {path : Path} {document : Json.Value}
    {hashes : Option (List (String × String))} {favorite : Option FavoriteInput}
    (h : store.Noted readings log)
    (hok : store.upsert files now path document hashes favorite = (store', .ok id))
    (hlater : ∀ earlier ∈ readings, earlier < now) :
    store'.Noted (now :: readings)
      ((favorite.map fun input => ⟨id, now, input.notes, input.tags, !store.isFavorite id⟩).toList ++
        log) := by
  obtain ⟨seen, -, hupsert, -⟩ := upsert_ok hok
  obtain ⟨stored, time, hstored, hledger, hfavorite⟩ := Tables.upsert_favorites hupsert
  have htime : time = now := hstored.time_eq fun entry hentry hlt =>
    Std.lt_irrefl (Std.lt_trans hlt (hlater _ (h.entries entry hentry)))
  have hentries : ∀ entry ∈ store'.tables.ledger.getD [], entry.recorded ∈ now :: readings := by
    rw [hledger]
    exact hstored.recorded_of (· ∈ now :: readings)
      (fun entry hentry => List.mem_cons_of_mem _ (h.entries entry hentry))
      (htime ▸ List.mem_cons_self)
  rcases hfavorite with ⟨rfl, hsame⟩ | ⟨input, rows, rfl, hrows, hnoted⟩
  · obtain ⟨rows, hrows⟩ := h.there
    exact ⟨⟨rows, hsame.trans hrows⟩, by rw [hsame]; exact h.rows, hentries,
      fun mark hmark => List.mem_cons_of_mem _ (h.marks mark hmark), h.clock⟩
  · rw [htime] at hnoted
    exact h.marked ⟨id, now, input.notes, input.tags, !store.isFavorite id⟩ hrows
      (congrArg (!·) (isFavorite_eq_any hrows id)) hlater hnoted hentries

theorem Noted.toggleFavorite (h : store.Noted readings log) (now : Timestamp) (id : FileId)
    (notes : Option String) (tags : List String)
    (hlater : (store.toggleFavorite now id notes tags).2 = .ok true →
      ∀ earlier ∈ readings, earlier < now) :
    (store.toggleFavorite now id notes tags).1.Noted
      (((Step.toggleFavorite now id notes tags).reading? store).toList ++ readings)
      (((Step.toggleFavorite now id notes tags).mark? store).toList ++ log) := by
  obtain ⟨rows, hrows⟩ := h.there
  rw [Step.reading?, Step.mark?]
  cases hfile : store.tables.file? id with
  | none =>
    rw [Store.toggleFavorite, Tables.toggleFavorite_unknown hfile]
    exact h
  | some file =>
    have hknown : (store.tables.file? id).isSome := by
      rw [hfile]
      rfl
    cases hon : rows.any fun row => row.file == id with
    | true =>
      rw [Store.toggleFavorite, Tables.toggleFavorite_off hknown hrows hon]
      refine h.of_subset ⟨_, rfl⟩ (fun row hrow => ?_) fun _ hentry => hentry
      rw [hrows]
      exact List.mem_of_mem_filter hrow
    | false =>
      rw [Store.toggleFavorite, Tables.toggleFavorite_on hknown hrows hon] at hlater ⊢
      exact h.marked ⟨id, now, notes, tags, !store.isFavorite id⟩ hrows
        (congrArg (!·) (isFavorite_eq_any hrows id)) (hlater rfl) rfl
        fun entry hentry => List.mem_cons_of_mem _ (h.entries entry hentry)

theorem Noted.step (h : store.Noted readings log) (step : Step)
    (hlater : ∀ now ∈ step.reading? store, ∀ earlier ∈ readings, earlier < now) :
    (step.run store).Noted ((step.reading? store).toList ++ readings)
      ((step.mark? store).toList ++ log) := by
  cases step with
  | upsert files now path document hashes favorite =>
    have hreading : (Step.upsert files now path document hashes favorite).reading? store =
        ((Step.upsert files now path document hashes favorite).deposit? store).map (·.now) := rfl
    rw [hreading] at hlater ⊢
    rw [Step.mark?, Step.run]
    cases hresult : store.upsert files now path document hashes favorite with
    | mk next result =>
      cases result with
      | error cause =>
        rw [upsert_error hresult, deposit?_upsert_of_error (by rw [hresult])]
        cases favorite <;> exact h
      | ok id =>
        obtain ⟨seen, hseen, -⟩ := upsert_ok hresult
        obtain ⟨bytes, modified, hstat, -⟩ := stat_of_ofPath hseen
        rw [deposit?_upsert hstat (by rw [hresult])] at hlater ⊢
        have hnoted := h.upsert hresult (hlater now rfl)
        cases favorite <;> exact hnoted
  | delete path =>
    obtain ⟨rows, hrows⟩ := h.there
    rw [Step.run, delete]
    split
    · rename_i file hfile
      refine h.of_subset ⟨_, congrArg (Option.map _) hrows⟩ (fun row hrow => ?_) fun entry hentry => ?_
      · rw [Tables.eraseFile, Tables.getD_map_filter] at hrow
        exact List.mem_of_mem_filter hrow
      · rw [Tables.eraseFile, Tables.getD_map_filter] at hentry
        exact List.mem_of_mem_filter hentry
    · exact h
  | toggleFavorite now id notes tags =>
    refine h.toggleFavorite now id notes tags fun hon earlier hearlier => ?_
    exact hlater now (by rw [Step.reading?, if_pos hon]; rfl) earlier hearlier
  | reopen settings => exact h.of_subset ⟨_, rfl⟩ (fun _ hrow => hrow) fun _ hentry => hentry

theorem Noted.afterSteps (h : store.Noted readings log) (steps : List Step)
    (hclock : (store.readingsBy steps ++ readings).Pairwise fun later earlier => earlier < later) :
    (store.afterSteps steps).Noted (store.readingsBy steps ++ readings)
      (store.marksBy steps ++ log) := by
  induction steps generalizing store readings log with
  | nil => exact h
  | cons step rest ih =>
    rw [readingsBy, List.append_assoc] at hclock ⊢
    rw [marksBy, List.append_assoc]
    obtain ⟨-, hnow, -⟩ := List.pairwise_append.mp hclock
    obtain ⟨-, -, hlater⟩ := List.pairwise_append.mp hnow
    exact ih (h.step step fun now hmem => hlater now (Option.mem_toList.mpr hmem)) hclock

/-! ### The list -/

theorem Noted.file_eq_of_added_eq (h : store.Noted readings log) {a b : FavoriteRow}
    (ha : a ∈ store.tables.favorites.getD []) (hb : b ∈ store.tables.favorites.getD [])
    (hadded : a.added = b.added) : a.file = b.file := by
  obtain ⟨mark, hmark, hnow⟩ := Option.map_eq_some_iff.mp (h.rows a ha).since
  obtain ⟨other, hother, hotherNow⟩ := Option.map_eq_some_iff.mp (h.rows b hb).since
  have hid : mark.id = a.file ∧ mark.turnsOn = true := by simpa using List.find?_some hmark
  have hotherId : other.id = b.file ∧ other.turnsOn = true := by
    simpa using List.find?_some hother
  -- Marks are of different times, so the two are one.
  have hnodup : (log.map Mark.now).Nodup := by
    refine List.pairwise_map.mpr (h.clock.imp ?_)
    intro mark earlier hlt heq
    exact Std.lt_irrefl (heq ▸ hlt)
  have hsame : mark = other :=
    List.inj_on_of_nodup_map hnodup (List.mem_of_find?_eq_some hmark)
      (List.mem_of_find?_eq_some hother) (hnow.trans (hadded.trans hotherNow.symm))
  rw [← hid.1, ← hotherId.1, hsame]

theorem Noted.pairwise_rows (h : store.Noted readings log) (hconsistent : store.tables.Consistent) :
    (sortBy FavoriteRow.precedes (store.tables.favorites.getD [])).Pairwise fun a b =>
      b.added < a.added ∧ a.file ≠ b.file := by
  have hmem : ∀ row ∈ sortBy FavoriteRow.precedes (store.tables.favorites.getD []),
      row ∈ store.tables.favorites.getD [] := fun row => (sortBy_perm _ _).mem_iff.mp
  have hapart : (sortBy FavoriteRow.precedes (store.tables.favorites.getD [])).Pairwise fun a b =>
      a.file ≠ b.file :=
    List.pairwise_map.mp
      (((sortBy_perm _ _).map FavoriteRow.file).nodup_iff.mpr hconsistent.favoritesApart)
  refine ((pairwise_sortBy FavoriteRow.arranges_precedes _).and hapart).imp_of_mem ?_
  intro a b ha hb hboth
  obtain ⟨hprecedes, hne⟩ := hboth
  simp only [FavoriteRow.precedes, Bool.or_eq_true, Bool.and_eq_true, decide_eq_true_eq,
    beq_iff_eq] at hprecedes
  refine ⟨hprecedes.resolve_right fun htie => hne ?_, hne⟩
  exact h.file_eq_of_added_eq (hmem a ha) (hmem b hb) htie.1

theorem mem_allFavorites {favorite : Favorite} :
    favorite ∈ store.tables.allFavorites ↔ ∃ row ∈ store.tables.favorites.getD [],
      ∃ file, store.file? row.file = some file ∧
        ⟨file, row.added, row.notes, tagsOf row.tags⟩ = favorite := by
  rw [Tables.allFavorites, List.mem_filterMap]
  refine exists_congr fun row => and_congr (sortBy_perm _ _).mem_iff ?_
  exact Option.map_eq_some_iff

theorem Noted.pairwise_allFavorites (h : store.Noted readings log)
    (hconsistent : store.tables.Consistent) :
    store.tables.allFavorites.Pairwise fun a b => b.added < a.added ∧ a.file.id ≠ b.file.id := by
  rw [Tables.allFavorites, List.pairwise_filterMap]
  refine (h.pairwise_rows hconsistent).imp fun {row other} hrows => ?_
  intro favorite hfavorite listed hlisted
  obtain ⟨file, hfile, rfl⟩ := Option.map_eq_some_iff.mp hfavorite
  obtain ⟨next, hnext, rfl⟩ := Option.map_eq_some_iff.mp hlisted
  refine ⟨hrows.1, ?_⟩
  show file.id ≠ next.id
  rw [Tables.id_of_file? hfile, Tables.id_of_file? hnext]
  exact hrows.2

/-- The list of favorites after something was said of them by some marks. -/
structure ListsFavorites (store : Store) (log : List Mark) : Prop where
  shown : ∀ limit, store.tables.files.length ≤ limit → ∀ id,
    store.isFavorite id = true ↔ ∃ favorite ∈ store.favorites limit, favorite.file.id = id
  existing : ∀ limit, ∀ favorite ∈ store.favorites limit,
    store.file? favorite.file.id = some favorite.file
  once : ∀ limit, ((store.favorites limit).map (·.file.id)).Nodup
  -- Each is listed with the time at which it last became a favorite, and these times descend.
  since : ∀ limit, ∀ favorite ∈ store.favorites limit,
    (latestTurn? log favorite.file.id).map (·.now) = some favorite.added
  newestFirst : ∀ limit, (store.favorites limit).Pairwise fun a b => b.added < a.added
  said : ∀ limit, ∀ favorite ∈ store.favorites limit,
    (latestMark? log favorite.file.id).map (fun mark => (mark.notes, mark.tags)) =
      some (favorite.notes, favorite.tags)
  toggledTwice : ∀ now now' id notes notes' tags tags', store.isFavorite id = false →
    ∃ next, store.toggleFavorite now id notes tags = (next, .ok (store.file? id).isSome) ∧
      next.toggleFavorite now' id notes' tags' = (store, .ok false)

theorem favorites_of_le {limit : Nat}
    (hpairwise : store.tables.allFavorites.Pairwise fun a b => a.file.id ≠ b.file.id)
    (hlimit : store.tables.files.length ≤ limit) :
    store.favorites limit = store.tables.allFavorites := by
  have hsubset : store.tables.allFavorites.map (·.file.id) ⊆ store.tables.files.map (·.id) := by
    intro id hid
    obtain ⟨favorite, hfavorite, rfl⟩ := List.mem_map.mp hid
    obtain ⟨row, -, file, hfile, rfl⟩ := mem_allFavorites.mp hfavorite
    exact List.mem_map.mpr ⟨file, List.mem_of_find?_eq_some hfile, rfl⟩
  have hlength := (List.subperm_of_subset (List.pairwise_map.mpr hpairwise) hsubset).length_le
  rw [List.length_map, List.length_map] at hlength
  exact List.take_of_length_le (Nat.le_trans hlength hlimit)

theorem Noted.toggledTwice (h : store.Noted readings log) (now now' : Timestamp) (id : FileId)
    (notes notes' : Option String) (tags tags' : List String)
    (hoff : store.isFavorite id = false) :
    ∃ next, store.toggleFavorite now id notes tags = (next, .ok (store.file? id).isSome) ∧
      next.toggleFavorite now' id notes' tags' = (store, .ok false) := by
  obtain ⟨rows, hrows⟩ := h.there
  rw [isFavorite_eq_any hrows] at hoff
  cases hfile : store.tables.file? id with
  | none =>
    refine ⟨store, ?_, ?_⟩
    · rw [Store.toggleFavorite, Tables.toggleFavorite_unknown hfile, file?, hfile]
      rfl
    · rw [Store.toggleFavorite, Tables.toggleFavorite_unknown hfile]
      rfl
  | some file =>
    have hknown : (store.tables.file? id).isSome := by
      rw [hfile]
      rfl
    let row : FavoriteRow := ⟨id, now, notes, tagsText tags⟩
    let next : Store :=
      { store with tables := { store.tables with favorites := some (rows ++ [row]) } }
    have hadded : notedRows id now ⟨notes, tags⟩ rows = rows ++ [row] := by
      rw [notedRows, if_neg (by simp [hoff])]
    have hkept : (rows ++ [row]).filter (fun row => row.file != id) = rows := by
      have hold : rows.filter (fun row => row.file != id) = rows :=
        List.filter_eq_self.mpr fun row hrow => by simpa using List.any_eq_false.mp hoff row hrow
      have hnew : [row].filter (fun row => row.file != id) = [] := by simp [row]
      rw [List.filter_append, hold, hnew, List.append_nil]
    refine ⟨next, ?_, ?_⟩
    · rw [Store.toggleFavorite, Tables.toggleFavorite_on hknown hrows hoff, file?, hfile, hadded]
      rfl
    · have hon : ((rows ++ [row]).any fun row => row.file == id) = true := by simp [row]
      have hoffAgain := Tables.toggleFavorite_off (show (next.tables.file? id).isSome from hknown)
        (show next.tables.favorites = some (rows ++ [row]) from rfl) hon ⟨notes', tags'⟩ now'
      rw [Store.toggleFavorite, hoffAgain, hkept, ← hrows]
      rfl

theorem Noted.listsFavorites (hnoted : store.Noted readings log)
    (hconsistent : store.tables.Consistent) : store.ListsFavorites log := by
  have hpairwise := hnoted.pairwise_allFavorites hconsistent
  have hmem : ∀ {limit favorite}, favorite ∈ store.favorites limit →
      ∃ row ∈ store.tables.favorites.getD [], ∃ file, store.file? row.file = some file ∧
        file.id = row.file ∧ ⟨file, row.added, row.notes, tagsOf row.tags⟩ = favorite := by
    intro limit favorite hfavorite
    obtain ⟨row, hrow, file, hfile, heq⟩ := mem_allFavorites.mp (List.mem_of_mem_take hfavorite)
    exact ⟨row, hrow, file, hfile, Tables.id_of_file? hfile, heq⟩
  constructor
  case shown =>
    intro limit hlimit id
    rw [favorites_of_le (hpairwise.imp And.right) hlimit]
    constructor
    · intro hfavorite
      obtain ⟨row, hrow, hid⟩ := List.any_eq_true.mp hfavorite
      obtain ⟨file, hfile⟩ := exists_file?_of_holds (hconsistent.favoritesOwned row hrow)
      exact ⟨_, mem_allFavorites.mpr ⟨row, hrow, file, hfile, rfl⟩,
        (Tables.id_of_file? hfile).trans (beq_iff_eq.mp hid)⟩
    · rintro ⟨favorite, hfavorite, rfl⟩
      obtain ⟨row, hrow, file, hfile, rfl⟩ := mem_allFavorites.mp hfavorite
      exact List.any_eq_true.mpr ⟨row, hrow, beq_iff_eq.mpr (Tables.id_of_file? hfile).symm⟩
  case existing =>
    intro limit favorite hfavorite
    obtain ⟨row, -, file, hfile, hid, rfl⟩ := hmem hfavorite
    exact hid.symm ▸ hfile
  case once =>
    intro limit
    exact List.pairwise_map.mpr ((hpairwise.imp And.right).sublist (List.take_sublist _ _))
  case since =>
    intro limit favorite hfavorite
    obtain ⟨row, hrow, file, -, hid, rfl⟩ := hmem hfavorite
    exact hid.symm ▸ (hnoted.rows row hrow).since
  case newestFirst =>
    intro limit
    exact (hpairwise.imp And.left).sublist (List.take_sublist _ _)
  case said =>
    intro limit favorite hfavorite
    obtain ⟨row, hrow, file, -, hid, rfl⟩ := hmem hfavorite
    have hrowNoted := hnoted.rows row hrow
    obtain ⟨mark, hmark, hnotes⟩ := Option.map_eq_some_iff.mp hrowNoted.notes
    have htags := hrowNoted.tags
    rw [hmark] at htags
    dsimp only
    rw [hid, hmark, ← hnotes, ← Option.some.inj htags, Option.map_some, tagsOf_tagsText]
  case toggledTwice =>
    intro now now' id notes notes' tags tags' hoff
    exact hnoted.toggledTwice now now' id notes notes' tags tags' hoff

theorem noted_opened (settings : Settings) : (ofTables settings {}).Noted [] [] where
  there := ⟨_, rfl⟩
  rows row hrow := by cases hrow
  entries entry hentry := by cases hentry
  marks mark hmark := by cases hmark
  clock := .nil

/-- After a run by a clock that goes forward, the favorites are listed by the times at which they last
became favorites, the latest first, and each with what was last said of it. -/
theorem favorites_of_run (settings : Settings) (steps : List Step)
    (hclock : ((ofTables settings {}).readingsBy steps).Pairwise fun later earlier =>
      earlier < later) :
    ((ofTables settings {}).afterSteps steps).ListsFavorites
      ((ofTables settings {}).marksBy steps) := by
  have hopened : (ofTables settings {}).Reachable := .opened settings
  have hnoted := (noted_opened settings).afterSteps steps (by rwa [List.append_nil])
  rw [List.append_nil, List.append_nil] at hnoted
  exact hnoted.listsFavorites (consistent_afterSteps hopened.consistent steps)

set_option maxRecDepth 2000 in
/-- Of three favorites one is set again, another one is turned off and on, and the third is deleted. -/
theorem favorites_of_run_with_deletion :
    let files : FileTree :=
      ⟨[(["a"], .file (.sound [1]) 0), (["b"], .file (.sound [2]) 0), (["c"], .file (.sound [3]) 0)]⟩
    let put (now : Timestamp) (path : Path) (favorite : Option FavoriteInput) : Step :=
      .upsert files now path (.object []) none favorite
    let steps : List Step :=
      [put "1" "a" (some ⟨none, ["x"]⟩), put "2" "b" none, .toggleFavorite "3" 2 none [],
        put "4" "c" (some ⟨none, []⟩), put "5" "a" (some ⟨some "n", ["\"", "\n"]⟩),
        .toggleFavorite "6" 2 none [], .toggleFavorite "7" 2 none ["y"], .reopen {}, .delete "c"]
    let store := (ofTables {} {}).afterSteps steps
    let log := (ofTables {} {}).marksBy steps
    (((ofTables {} {}).readingsBy steps).Pairwise fun later earlier => earlier < later) ∧
      store.ListsFavorites log ∧
      (store.favorites 2).map (fun favorite =>
          (favorite.file.path, favorite.added, favorite.notes, favorite.tags)) =
        [("b", "7", none, ["y"]), ("a", "1", some "n", ["\"", "\n"])] := by
  intro files put steps store log
  have hclock : ((ofTables {} {}).readingsBy steps).Pairwise fun later earlier =>
      earlier < later := by
    decide +kernel
  exact ⟨hclock, favorites_of_run {} steps hclock, by decide +kernel⟩

end Store

end Catalog
