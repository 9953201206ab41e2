import Mathlib.Logic.Relation
import Catalog.Proofs.Store.Run

/-! Transactions. An upsert is carried out one statement after the other, each on what those before it
have left, and only at the end does its work become lasting. Any statement may fail, for a cause of its
own or from outside, and so may the end; whichever it is, what was lasting before is so after it. -/

namespace Catalog

open Catalog.Order Relation

/-! ### Scripts -/

/-- What a transaction does: statements that read and change the tables at work, each chosen by what
those before it gave. -/
inductive Script (α : Type) where
  | done (result : α)
  | statement {β : Type} (act : Tables → Except Fault (Tables × β)) (next : β → Script α)

namespace Script

variable {α β : Type}

protected def bind : Script α → (α → Script β) → Script β
  | done result, next => next result
  | statement act rest, next => statement act fun given => (rest given).bind next

instance instMonad : Monad Script where
  pure := done
  bind := Script.bind

/-- The outcome of the statements if nothing comes between them. -/
def run : Script α → Tables → Except Fault (Tables × α)
  | done result, tables => .ok (tables, result)
  | statement act next, tables => (act tables).bind fun given => (next given.2).run given.1

theorem run_bind (script : Script α) (next : α → Script β) (tables : Tables) :
    (script >>= next).run tables = script.run tables >>= fun given => (next given.2).run given.1 := by
  induction script generalizing tables with
  | done result => rfl
  | statement act rest ih =>
    show ((act tables).bind fun given => ((rest given.2).bind next).run given.1) = _
    rw [run]
    cases act tables with
    | error fault => rfl
    | ok given => exact ih given.2 given.1

theorem run_bind_of_ok {script : Script α} {tables tables' : Tables} {result : α}
    (h : script.run tables = .ok (tables', result)) (next : α → Script β) :
    (script >>= next).run tables = (next result).run tables' := by
  rw [run_bind, h]
  rfl

theorem run_bind_of_error {script : Script α} {tables : Tables} {fault : Fault}
    (h : script.run tables = .error fault) (next : α → Script β) :
    (script >>= next).run tables = .error fault := by
  rw [run_bind, h]
  rfl

/-- A statement that gives something and changes nothing. -/
def ask (read : Tables → Except Fault α) : Script α :=
  statement (fun tables => (read tables).map fun result => (tables, result)) done

/-- A statement that changes the tables. -/
def change (write : Tables → Except Fault Tables) : Script Unit :=
  statement (fun tables => (write tables).map fun tables => (tables, ())) done

/-- One statement for each element of a list. -/
def each (write : α → Tables → Except Fault Tables) : List α → Script Unit
  | [] => done ()
  | x :: rest => do
    change (write x)
    each write rest

def optional (given : Option α) (script : α → Script Unit) : Script Unit :=
  match given with
  | some value => script value
  | none => done ()

theorem run_ask (read : Tables → Except Fault α) (tables : Tables) :
    (ask read).run tables = (read tables).map fun result => (tables, result) := by
  simp only [ask, run]
  cases read tables <;> rfl

theorem run_change (write : Tables → Except Fault Tables) (tables : Tables) :
    (change write).run tables = (write tables).map fun tables => (tables, ()) := by
  simp only [change, run]
  cases write tables <;> rfl

theorem run_each (write : α → Tables → Except Fault Tables) (xs : List α) (tables : Tables) :
    (each write xs).run tables =
      (xs.foldlM (fun tables x => write x tables) tables).map fun tables => (tables, ()) := by
  induction xs generalizing tables with
  | nil => rfl
  | cons x rest ih =>
    rw [each, run_bind, run_change, List.foldlM_cons]
    cases write x tables with
    | error fault => rfl
    | ok next => exact ih next

/-! ### The statements of an upsert -/

/-- Inserts the fields of a file, the explicit ones first. The statement that does so is prepared
once. -/
def insertExtracted (id : FileId) (extracted : Extracted) : Script Unit := do
  let _ ← ask fun tables => Tables.need .fields tables.fields
  each (fun e tables => tables.insertFields id false [e]) extracted.explicit
  each (fun e tables => tables.insertFields id true [e]) extracted.derived

def appendChanges (id : FileId) (recorded : Timestamp) (changes : List (FieldKey × Change)) :
    Script Unit := do
  let _ ← ask fun tables => Tables.need .ledger tables.ledger
  each (fun e tables => tables.appendEntry id recorded e.2.kind e.1 e.2.old? e.2.new?) changes

def putHashes (id : FileId) (hashes : List (String × String)) : Script Unit := do
  let _ ← ask fun tables => Tables.need .hashes tables.hashes
  each (fun e tables => tables.putHashes id [e]) (keyed hashes)

/-- Adds the record of a new file, and gives its id. -/
def insertRecord (now : Timestamp) (path : String) (seen : Observation) : Script FileId :=
  statement
    (fun tables =>
      let record : FileRecord :=
        ⟨tables.nextFile, path, seen.hash, seen.size, seen.modified, seen.type, now, now⟩
      .ok ({ tables with files := tables.files ++ [record], nextFile := tables.nextFile + 1 },
        tables.nextFile))
    done

def insertFile (now : Timestamp) (path : String) (seen : Observation) (extracted : Extracted) :
    Script FileId := do
  let id ← insertRecord now path seen
  insertExtracted id extracted
  pure id

/-- The stored fields of a file, derived ones or the others. -/
def fieldsOfKind (id : FileId) (derived : Bool) : Script FieldMap :=
  ask fun tables => (Tables.need .fields tables.fields).map fun rows =>
    Tables.fieldsAmong rows id fun row => row.derived == derived

def refreshFile (now : Timestamp) (file : FileRecord) (seen : Observation)
    (extracted : Extracted) : Script Unit := do
  let explicit ← fieldsOfKind file.id false
  let derived ← fieldsOfKind file.id true
  let changes := FieldMap.changes explicit extracted.explicit
  if file.hash ≠ seen.hash ∨ changes ≠ [] ∨ derived ≠ extracted.derived then do
    change fun tables => tables.eraseFields file.id
    insertExtracted file.id extracted
    appendChanges file.id now changes
    change fun tables => .ok <| tables.updateFile file.id fun file =>
      { file with
        hash := seen.hash, size := seen.size, modified := seen.modified, type := seen.type
        lastUpdated := now }
  else
    change fun tables => .ok <| tables.updateFile file.id fun file => { file with lastUpdated := now }

def storeFile (now : Timestamp) (path : String) (seen : Observation) (extracted : Extracted) :
    Option FileRecord → Script (FileId × Timestamp)
  | none => do
    let id ← insertFile now path seen extracted
    pure (id, now)
  | some file => do
    let now ← ask fun tables => tables.ledgerTime file.id now
    refreshFile now file seen extracted
    pure (file.id, now)

/-- An upsert as a transaction. The first statement begins it and changes nothing. -/
def upsert (now : Timestamp) (path : String) (seen : Observation) (extracted : Extracted)
    (hashes : Option (List (String × String))) (favorite : Option FavoriteInput) :
    Script FileId := do
  change .ok
  let known ← ask fun tables => .ok (tables.fileAt? path)
  let stored ← storeFile now path seen extracted known
  optional hashes fun hashes => putHashes stored.1 hashes
  optional favorite fun input => change fun tables => tables.setFavorite stored.1 input stored.2
  pure stored.1

end Script

/-! ### One statement for each row -/

namespace Tables

variable {tables : Tables} {id : FileId}

theorem insertFields_eq_foldlM (tables : Tables) (id : FileId) (derived : Bool) (fields : FieldMap) :
    tables.insertFields id derived fields =
      fields.foldlM (fun tables e => tables.insertFields id derived [e]) tables := by
  induction fields generalizing tables with
  | nil => rfl
  | cons e rest ih =>
    obtain ⟨field, value⟩ := e
    simp only [List.foldlM_cons, insertFields]
    cases need .fields tables.fields with
    | error fault => rfl
    | ok rows =>
      simp only [bind, Except.bind]
      split
      · rfl
      · exact ih _

theorem appendChanges_eq_foldlM (tables : Tables) (id : FileId) (recorded : Timestamp)
    (changes : List (FieldKey × Change)) :
    tables.appendChanges id recorded changes =
      need .ledger tables.ledger >>= fun _ =>
        changes.foldlM
          (fun tables e => tables.appendEntry id recorded e.2.kind e.1 e.2.old? e.2.new?) tables := by
  induction changes generalizing tables with
  | nil => cases hledger : tables.ledger <;> rw [appendChanges, hledger] <;> rfl
  | cons e rest ih =>
    obtain ⟨field, change⟩ := e
    rw [appendChanges, List.foldlM_cons]
    cases happend : tables.appendEntry id recorded change.kind field change.old? change.new? with
    | error fault =>
      -- A ledger that is missing is missed by the statement as by its preparation.
      cases hneed : need .ledger tables.ledger with
      | error missing =>
        rw [appendEntry, hneed] at happend
        cases happend
        rfl
      | ok entries => rfl
    | ok next =>
      obtain ⟨entries, hentries, rfl⟩ := appendEntry_ok happend
      rw [hentries]
      exact ih _

/-- Hashes that are put one after the other, each under another algorithm, are put all at once. -/
theorem foldlM_putHashes {rows : List HashRow} {given : List (String × String)}
    (hrows : tables.hashes = some rows) (hnodup : (given.map (·.1)).Nodup) :
    given.foldlM (fun tables e => tables.putHashes id [e]) tables =
      .ok
        { tables with
          hashes := some
            ((rows.filter fun row => !(row.file == id && given.any fun e => e.1 == row.algorithm)) ++
              given.map fun e => ⟨id, e.1, e.2⟩) } := by
  induction given generalizing tables rows with
  | nil => simp [← hrows, pure, Except.pure]
  | cons e rest ih =>
    obtain ⟨hnew, hrest⟩ := List.nodup_cons.mp hnodup
    have hfirst : tables.putHashes id [e] =
        .ok
          { tables with
            hashes := some
              ((rows.filter fun row => !(row.file == id && e.1 == row.algorithm)) ++
                [⟨id, e.1, e.2⟩]) } := by
      rw [putHashes, hrows]
      simp [need, bind, Except.bind, pure, Except.pure, keyed, put]
    rw [List.foldlM_cons, hfirst]
    show List.foldlM _ _ rest = _
    rw [ih rfl hrest]
    -- The row that was just put is under none of the other algorithms, so it stays.
    have hkept : [(⟨id, e.1, e.2⟩ : HashRow)].filter
        (fun row => !(row.file == id && rest.any fun other => other.1 == row.algorithm)) =
          [⟨id, e.1, e.2⟩] := by
      apply List.filter_eq_self.mpr
      intro row hrow
      rw [List.mem_singleton.mp hrow, beq_self_eq_true, Bool.true_and, Bool.not_eq_true',
        List.any_eq_false]
      intro other hother hsame
      exact hnew (List.mem_map.mpr ⟨other, hother, by simpa using hsame⟩)
    have hold : ∀ row : HashRow,
        (!(row.file == id && rest.any fun other => other.1 == row.algorithm) &&
          !(row.file == id && e.1 == row.algorithm)) =
            !(row.file == id && (e :: rest).any fun other => other.1 == row.algorithm) := by
      intro row
      rw [List.any_cons]
      cases row.file == id <;> cases e.1 == row.algorithm <;> simp
    rw [List.filter_append, hkept, List.filter_filter, List.append_assoc]
    simp only [hold, List.map_cons, List.singleton_append]

theorem putHashes_eq_foldlM (tables : Tables) (id : FileId) (hashes : List (String × String)) :
    tables.putHashes id hashes =
      need .hashes tables.hashes >>= fun _ =>
        (keyed hashes).foldlM (fun tables e => tables.putHashes id [e]) tables := by
  cases hrows : tables.hashes with
  | none =>
    rw [putHashes, hrows]
    rfl
  | some rows =>
    have hsame : ∀ row : HashRow, (hashes.any fun e => e.1 == row.algorithm) =
        (keyed hashes).any fun e => e.1 == row.algorithm := by
      intro row
      rw [Bool.eq_iff_iff, List.any_eq_true, List.any_eq_true]
      have hmem : row.algorithm ∈ (keyed hashes).map (·.1) ↔ row.algorithm ∈ hashes.map (·.1) :=
        mem_map_fst_keyed
      simpa [List.mem_map] using hmem.symm
    show _ = (keyed hashes).foldlM (fun tables e => tables.putHashes id [e]) tables
    rw [foldlM_putHashes hrows (ascending_keyed hashes).nodup, putHashes, hrows]
    simp only [need, bind, Except.bind, pure, Except.pure, hsame]

end Tables

namespace Script

variable {tables : Tables}

theorem run_insertExtracted {rows : List FieldRow} (hrows : tables.fields = some rows) (id : FileId)
    (extracted : Extracted) :
    (insertExtracted id extracted).run tables =
      (tables.insertExtracted id extracted).map fun tables => (tables, ()) := by
  rw [insertExtracted, run_bind, run_ask, hrows]
  show ((each _ extracted.explicit >>= fun _ => each _ extracted.derived).run tables) = _
  rw [run_bind, run_each, ← Tables.insertFields_eq_foldlM, Tables.insertExtracted]
  cases tables.insertFields id false extracted.explicit with
  | error fault => rfl
  | ok next =>
    show (each _ extracted.derived).run next = _
    rw [run_each, ← Tables.insertFields_eq_foldlM]
    rfl

theorem run_appendChanges (tables : Tables) (id : FileId) (recorded : Timestamp)
    (changes : List (FieldKey × Change)) :
    (appendChanges id recorded changes).run tables =
      (tables.appendChanges id recorded changes).map fun tables => (tables, ()) := by
  rw [appendChanges, run_bind, run_ask, Tables.appendChanges_eq_foldlM]
  cases Tables.need .ledger tables.ledger with
  | error fault => rfl
  | ok entries => exact run_each _ _ _

theorem run_putHashes (tables : Tables) (id : FileId) (hashes : List (String × String)) :
    (putHashes id hashes).run tables =
      (tables.putHashes id hashes).map fun tables => (tables, ()) := by
  rw [putHashes, run_bind, run_ask, Tables.putHashes_eq_foldlM]
  cases Tables.need .hashes tables.hashes with
  | error fault => rfl
  | ok rows => exact run_each _ _ _

theorem run_insertFile (tables : Tables) (now : Timestamp) (path : String) (seen : Observation)
    (extracted : Extracted) :
    (insertFile now path seen extracted).run tables =
      tables.insertFile now path seen extracted := by
  rw [insertFile, run_bind, Tables.insertFile]
  show (insertExtracted tables.nextFile extracted >>= fun _ => pure tables.nextFile).run _ = _
  rw [run_bind]
  cases hrows : tables.fields with
  | none => rfl
  | some rows =>
    rw [run_insertExtracted rfl]
    simp only [Tables.need, bind, Except.bind, Except.map]
    cases Tables.insertExtracted _ tables.nextFile extracted <;> rfl

theorem run_fieldsOfKind {rows : List FieldRow} (hrows : tables.fields = some rows) (id : FileId)
    (derived : Bool) :
    (fieldsOfKind id derived).run tables =
      .ok (tables, Tables.fieldsAmong rows id fun row => row.derived == derived) := by
  rw [fieldsOfKind, run_ask, hrows]
  rfl

theorem run_refreshFile (tables : Tables) (now : Timestamp) (file : FileRecord) (seen : Observation)
    (extracted : Extracted) :
    (refreshFile now file seen extracted).run tables =
      (tables.refreshFile now file seen extracted).map fun tables => (tables, ()) := by
  rw [refreshFile, Tables.refreshFile]
  cases hrows : tables.fields with
  | none =>
    rw [run_bind, fieldsOfKind, run_ask, hrows]
    rfl
  | some rows =>
    have hexplicit : (fun row : FieldRow => row.derived == false) = fun row => !row.derived := by
      funext row
      cases row.derived <;> rfl
    have hderived : (fun row : FieldRow => row.derived == true) = fun row => row.derived := by
      funext row
      cases row.derived <;> rfl
    have hfirst := run_fieldsOfKind hrows file.id false
    have hsecond := run_fieldsOfKind hrows file.id true
    rw [hexplicit] at hfirst
    rw [hderived] at hsecond
    rw [run_bind_of_ok hfirst, run_bind_of_ok hsecond]
    simp only [Tables.need, bind, Except.bind]
    split
    · obtain ⟨erased, herase, hleft⟩ : ∃ erased, tables.eraseFields file.id = .ok erased ∧
          erased.fields = some (rows.filter fun row : FieldRow => row.file != file.id) :=
        ⟨_, by rw [Tables.eraseFields, hrows]; rfl, rfl⟩
      have hchange := run_change (fun tables => tables.eraseFields file.id) tables
      have hinsert := run_insertExtracted hleft file.id extracted
      rw [herase] at hchange ⊢
      refine (run_bind_of_ok hchange _).trans ?_
      dsimp only
      cases hinserted : erased.insertExtracted file.id extracted with
      | error fault =>
        rw [hinserted] at hinsert
        exact run_bind_of_error hinsert _
      | ok inserted =>
        rw [hinserted] at hinsert
        refine (run_bind_of_ok hinsert _).trans ?_
        have happend := run_appendChanges inserted file.id now (FieldMap.changes
          (Tables.fieldsAmong rows file.id fun row => !row.derived) extracted.explicit)
        dsimp only
        cases happended : inserted.appendChanges file.id now (FieldMap.changes
            (Tables.fieldsAmong rows file.id fun row => !row.derived) extracted.explicit) with
        | error fault =>
          rw [happended] at happend
          exact run_bind_of_error happend _
        | ok appended =>
          rw [happended] at happend
          exact (run_bind_of_ok happend _).trans (run_change _ _)
    · exact run_change _ _

theorem run_storeFile (tables : Tables) (now : Timestamp) (path : String) (seen : Observation)
    (extracted : Extracted) :
    (storeFile now path seen extracted (tables.fileAt? path)).run tables =
      tables.storeFile now path seen extracted := by
  rw [Tables.storeFile]
  cases tables.fileAt? path with
  | none =>
    show (insertFile now path seen extracted >>= fun id => pure (id, now)).run tables = _
    rw [run_bind, run_insertFile]
    rfl
  | some file =>
    rw [storeFile, run_bind, run_ask]
    dsimp only
    cases tables.ledgerTime file.id now with
    | error fault => rfl
    | ok time =>
      show (refreshFile time file seen extracted >>= fun _ => pure (file.id, time)).run tables = _
      rw [run_bind, run_refreshFile]
      simp only [bind, Except.bind]
      cases tables.refreshFile time file seen extracted <;> rfl

/-- Where nothing comes between its statements, the transaction does what an upsert does. -/
theorem run_upsert (tables : Tables) (now : Timestamp) (path : String) (seen : Observation)
    (extracted : Extracted) (hashes : Option (List (String × String)))
    (favorite : Option FavoriteInput) :
    (upsert now path seen extracted hashes favorite).run tables =
      tables.upsert now path seen extracted hashes favorite := by
  have hbegin : (change .ok).run tables = .ok (tables, ()) := run_change _ _
  have hknown : (ask fun tables => .ok (tables.fileAt? path)).run tables =
      .ok (tables, tables.fileAt? path) := run_ask _ _
  rw [upsert, run_bind_of_ok hbegin, run_bind_of_ok hknown, Tables.upsert]
  have hstore := run_storeFile tables now path seen extracted
  cases hstored : tables.storeFile now path seen extracted with
  | error fault =>
    rw [hstored] at hstore
    exact run_bind_of_error hstore _
  | ok stored =>
    rw [hstored] at hstore
    obtain ⟨next, id, time⟩ := stored
    refine (run_bind_of_ok hstore _).trans ?_
    have hhashes : ∀ given, (putHashes id given).run next =
        (next.putHashes id given).map fun tables => (tables, ()) := run_putHashes next id
    have hfavorite : ∀ (input : FavoriteInput) (marked : Tables),
        ((change fun tables => tables.setFavorite id input time) >>= fun _ => pure id).run marked =
          (marked.setFavorite id input time).map fun tables => (tables, id) := by
      intro input marked
      rw [run_bind, run_change]
      cases marked.setFavorite id input time <;> rfl
    cases hashes with
    | none =>
      cases favorite with
      | none => rfl
      | some input =>
        refine (hfavorite input next).trans ?_
        simp only [bind, Except.bind, pure, Except.pure]
        cases next.setFavorite id input time <;> rfl
    | some given =>
      rw [optional, run_bind, hhashes]
      simp only [bind, Except.bind]
      cases next.putHashes id given with
      | error fault => rfl
      | ok marked =>
        cases favorite with
        | none => rfl
        | some input =>
          refine (hfavorite input marked).trans ?_
          dsimp only
          cases marked.setFavorite id input time <;> rfl

end Script

/-! ### Carrying out -/

/-- A transaction under way, with what is lasting, what the statements have made of it so far, and those
that are left; or one that has ended, with its result unless it failed. -/
inductive Session (α : Type) where
  | active (lasting working : Tables) (left : Script α)
  | closed (lasting : Tables) (result : Option α)

namespace Session

variable {α : Type} {script : Script α} {tables tables' : Tables} {result : α}
  {session next : Session α}

def start (tables : Tables) (script : Script α) : Session α := active tables tables script

/-- What any other look at the tables finds. -/
def lasting : Session α → Tables
  | active lasting _ _ => lasting
  | closed lasting _ => lasting

def result? : Session α → Option α
  | active _ _ _ => none
  | closed _ result => result

inductive Step : Session α → Session α → Prop
  | advance {β : Type} {lasting working : Tables} {act : Tables → Except Fault (Tables × β)}
      {next : β → Script α} {given : Tables × β} (hact : act working = .ok given) :
      Step (active lasting working (.statement act next)) (active lasting given.1 (next given.2))
  -- A statement or the end of the transaction fails, for whatever cause.
  | broken {lasting working : Tables} {left : Script α} :
      Step (active lasting working left) (closed lasting none)
  | committed {lasting working : Tables} {result : α} :
      Step (active lasting working (.done result)) (closed working (some result))

def Run : Session α → Session α → Prop := ReflTransGen Step

/-- What is true of a transaction at any time: the statements that are left lead from the tables at work
to where all of them lead from the start, and only at the end is that what lasts. -/
inductive Sound (tables : Tables) (script : Script α) : Session α → Prop
  | active {working : Tables} {left : Script α} (hleft : left.run working = script.run tables) :
      Sound tables script (active tables working left)
  | failed : Sound tables script (closed tables none)
  | committed {tables' : Tables} {result : α} (hrun : script.run tables = .ok (tables', result)) :
      Sound tables script (closed tables' (some result))

theorem Sound.step (h : Sound tables script session) (hstep : Step session next) :
    Sound tables script next := by
  cases hstep with
  | @advance _ _ working act rest given hact =>
    cases h with
    | active hleft =>
      apply Sound.active
      rw [← hleft, Script.run, hact]
      rfl
  | broken =>
    cases h with
    | active => exact .failed
  | committed =>
    cases h with
    | active hleft => exact .committed hleft.symm

theorem sound_run (hrun : Run (start tables script) session) : Sound tables script session := by
  induction hrun with
  | refl => exact .active rfl
  | tail _ hstep ih => exact ih.step hstep

/-- Wherever a transaction stands, it has changed nothing, or it has ended with the outcome of its
statements. -/
theorem outcome (hrun : Run (start tables script) session) :
    session.lasting = tables ∧ session.result? = none ∨
      ∃ tables' result, session = closed tables' (some result) ∧
        script.run tables = .ok (tables', result) := by
  cases sound_run hrun with
  | active => exact .inl ⟨rfl, rfl⟩
  | failed => exact .inl ⟨rfl, rfl⟩
  | committed hdone => exact .inr ⟨_, _, rfl, hdone⟩

/-- Where every statement succeeds, the transaction can come to its end. -/
theorem run_closed {lasting : Tables} (h : script.run tables = .ok (tables', result)) :
    Run (active lasting tables script) (closed tables' (some result)) := by
  induction script generalizing tables with
  | done =>
    cases h
    exact .single .committed
  | statement act rest ih =>
    rw [Script.run] at h
    cases hact : act tables with
    | error fault =>
      rw [hact] at h
      cases h
    | ok given =>
      rw [hact] at h
      exact .head (.advance hact) (ih given.2 h)

end Session

end Catalog
