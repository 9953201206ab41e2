import Catalog.Proofs.Store.Conjunction
import Mathlib.Data.Int.Order.Basic
import Mathlib.Data.List.Perm.Basic

/-! What the operators find among the files of a catalog. They come in opposites, and of the files that
can be compared with a literal each is found by an operator or by its opposite, whether the comparison is
one of texts or of numbers. -/

namespace Catalog

open Catalog.Number Catalog.Order Catalog.Query

/-! ### Opposite operators -/

namespace Query.Operator

/-- The operator that holds where this one does not. A search for a substring has none. -/
def opposite : Operator → Operator
  | ge => lt
  | lt => ge
  | le => gt
  | gt => le
  | eq => ne
  | ne => eq
  | like => like
  | contains => contains

variable {op : Operator}

theorem accepts_opposite (h : op.isSubstring = false) (o : Ordering) :
    op.opposite.accepts o = !op.accepts o := by
  cases op with
  | like => cases h
  | contains => cases h
  | _ => cases o <;> rfl

theorem isSubstring_of_isOrdering (h : op.isOrdering) : op.isSubstring = false := by
  revert h
  cases op <;> decide

@[simp] theorem isSubstring_opposite : op.opposite.isSubstring = op.isSubstring := by
  cases op <;> rfl

@[simp] theorem isOrdering_opposite : op.opposite.isOrdering = op.isOrdering := by
  cases op <;> rfl

end Query.Operator

theorem orderOf_eq_lt {a b : Int} : orderOf a b = .lt ↔ a < b := by
  unfold orderOf
  split
  · simp_all
  · split <;> simp_all

theorem orderOf_eq_gt {a b : Int} : orderOf a b = .gt ↔ b < a := by
  unfold orderOf
  split
  · simp only [reduceCtorEq, false_iff]
    omega
  · split
    · simp only [reduceCtorEq, false_iff]
      omega
    · simp only [true_iff]
      omega

theorem accepts_eq_iff {a b : String} : Operator.eq.accepts (orderOf a b) ↔ a = b := by
  unfold orderOf
  split
  · rename_i hlt
    refine iff_of_false (by decide) ?_
    rintro rfl
    exact Std.lt_irrefl hlt
  · split <;> simp_all [Operator.accepts]

namespace Operand

variable {operand : Operand} {op : Operator} {literal : Literal} {n m : Double}

theorem compares_eq_text {text value : String} :
    (Operand.text text).compares .eq (.text value) ↔ text = value := accepts_eq_iff

/-- A piece of text is looked for without regard to the case of ASCII letters. -/
theorem compares_substring (hop : op.isSubstring) {text value : String} :
    (Operand.text text).compares op (.text value) ↔
      Text.lower value.toList <:+: Text.lower text.toList := by
  unfold compares
  rw [hop, if_pos rfl, Text.occursIn_iff]
  rfl

/-- The operand takes part in a comparison: what is put in order with a number has to be one. -/
def isComparable (operand : Operand) (op : Operator) : Literal → Bool
  | .number _ => !op.isOrdering || operand.units?.isSome
  | _ => true

theorem compares_opposite (hop : op.isSubstring = false) (h : operand.isComparable op literal) :
    operand.compares op.opposite literal = !operand.compares op literal := by
  unfold compares
  simp only [Operator.isSubstring_opposite, Operator.isOrdering_opposite, hop, Bool.false_eq_true,
    if_false]
  cases literal with
  | bool => exact op.accepts_opposite hop _
  | text => exact op.accepts_opposite hop _
  | number value =>
    cases operand with
    | size bytes => exact op.accepts_opposite hop _
    | text text =>
      dsimp only
      cases hordering : op.isOrdering with
      | false => exact op.accepts_opposite hop _
      | true =>
        have hnumber : (Operand.text text).units?.isSome := by simpa [isComparable, hordering] using h
        obtain ⟨units, hunits⟩ := Option.isSome_iff_exists.mp hnumber
        simp only [hunits, if_true]
        exact op.accepts_opposite hop _

theorem isComparable_of_compares (hop : op.isSubstring = false) (h : operand.compares op literal) :
    operand.isComparable op literal := by
  cases literal with
  | bool => rfl
  | text => rfl
  | number value =>
    cases operand with
    | size bytes => exact Bool.or_true _
    | text text =>
      cases hordering : op.isOrdering with
      | false => simp [isComparable, hordering]
      | true =>
        cases hunits : (Operand.text text).units? with
        | some units => simp [isComparable, hunits]
        | none => simp [compares, hop, hordering, hunits] at h

theorem compares_size (hop : op.isSubstring = false) (bytes : Nat) :
    (Operand.size bytes).compares op (.number n) =
      op.accepts (orderOf ((bytes : Int) * Double.one) n.toInt) := by
  unfold compares
  rw [hop]
  rfl

theorem compares_number (hop : op.isSubstring = false) (hordering : op.isOrdering) :
    operand.compares op (.number n) =
      operand.units?.any fun units => op.accepts (orderOf units n.toInt) := by
  cases operand with
  | size bytes => exact compares_size hop bytes
  | text text =>
    cases hunits : (Operand.text text).units? with
    | none => simp [compares, hop, hordering, hunits]
    | some units => simp [compares, hop, hordering, hunits]

theorem compares_lt_mono (h : n.toInt ≤ m.toInt) (hn : operand.compares .lt (.number n)) :
    operand.compares .lt (.number m) := by
  rw [compares_number rfl rfl, Option.any_eq_true] at hn ⊢
  obtain ⟨units, hunits, hlt⟩ := hn
  simp only [Operator.accepts, beq_iff_eq, orderOf_eq_lt] at hlt ⊢
  exact ⟨units, hunits, by omega⟩

theorem compares_gt_mono (h : n.toInt ≤ m.toInt) (hm : operand.compares .gt (.number m)) :
    operand.compares .gt (.number n) := by
  rw [compares_number rfl rfl, Option.any_eq_true] at hm ⊢
  obtain ⟨units, hunits, hgt⟩ := hm
  simp only [Operator.accepts, beq_iff_eq, orderOf_eq_gt] at hgt ⊢
  exact ⟨units, hunits, by omega⟩

end Operand

/-! ### Lists in two parts -/

/-- Every element of a list is in one of two parts and in no more than one. -/
structure Parts {α : Type} (a b whole : List α) : Prop where
  disjoint : a.Disjoint b
  perm : (a ++ b).Perm whole

namespace Parts

variable {α : Type} {a b a' b' whole whole' : List α}

theorem of_perm (h : Parts a b whole) (ha : a'.Perm a) (hb : b'.Perm b) (hwhole : whole'.Perm whole) :
    Parts a' b' whole' where
  disjoint := fun _ hx hx' => h.disjoint (ha.mem_iff.mp hx) (hb.mem_iff.mp hx')
  perm := ((ha.append hb).trans h.perm).trans hwhole.symm

theorem of_filter {p q r : α → Bool} (l : List α) (h : ∀ x, q x = (r x && !p x))
    (hp : ∀ x, p x → r x) : Parts (l.filter p) (l.filter q) (l.filter r) where
  disjoint := by
    intro x hx hx'
    have hq := (List.mem_filter.mp hx').2
    simp [h, (List.mem_filter.mp hx).2] at hq
  perm := by
    have hfirst : (l.filter r).filter p = l.filter p := by
      rw [List.filter_filter]
      refine List.filter_congr fun x _ => ?_
      cases hx : p x with
      | false => rfl
      | true => exact hp x hx
    have hsecond : (l.filter r).filter (fun x => !p x) = l.filter q := by
      rw [List.filter_filter]
      exact List.filter_congr fun x _ => by rw [h, Bool.and_comm]
    rw [← hfirst, ← hsecond]
    exact List.filter_append_perm p _

end Parts

namespace Tables

theorem fieldsOf_of_missing {tables : Tables} (h : tables.fields.isSome = false) (id : FileId) :
    tables.fieldsOf id = [] := by
  have hnone : tables.fields = none := by simpa using h
  rw [fieldsOf, hnone]
  rfl

/-- What one predicate selects. Where the table of fields is missing no file has a field. -/
theorem select_singleton_perm (tables : Tables) (predicate : Predicate) :
    (tables.select [predicate]).Perm
      (tables.files.filter fun file => predicate.holds file (tables.fieldsOf file.id)) := by
  have hsatisfies : tables.satisfies [predicate] =
      fun file => predicate.holds file (tables.fieldsOf file.id) := by
    funext file
    simp [satisfies]
  rw [select]
  by_cases hanswers : tables.answers [predicate]
  · simp only [hanswers, Bool.not_true, Bool.false_eq_true, if_false, hsatisfies]
    exact sortBy_perm _ _
  · simp only [hanswers, Bool.not_false, if_true]
    have hmissing : predicate.readsFields ∧ tables.fields.isSome = false := by
      simpa [answers_iff, isEvaluable_singleton] using hanswers
    obtain ⟨hreads, hmissing⟩ := hmissing
    obtain ⟨field, op, literal⟩ := predicate
    cases field with
    | file column => cases hreads
    | field key =>
      rw [List.filter_eq_nil_iff.mpr]
      intro file _
      simp [Predicate.holds, FieldRef.operand?, fieldsOf_of_missing hmissing, get?]

end Tables

namespace Store

variable (store : Store) (field : FieldRef) {op : Operator} {literal : Literal}

/-- The files of which a comparison holds, whatever the query that makes it. -/
def matching (op : Operator) (literal : Literal) : List FileRecord :=
  store.tables.select [⟨field, op, literal⟩]

/-- The files with a property of what a comparison is about. -/
def filesWith (property : Operand → Bool) : List FileRecord :=
  store.tables.files.filter fun file =>
    (field.operand? file (store.tables.fieldsOf file.id)).any property

/-- The files that have the field. -/
def having : List FileRecord := store.filesWith field fun _ => true

/-- The files that have the field with a text that reads as a finite number. -/
def havingNumber : List FileRecord := store.filesWith field fun operand => operand.units?.isSome

theorem matching_perm (op : Operator) (literal : Literal) :
    (store.matching field op literal).Perm
      (store.filesWith field fun operand => operand.compares op literal) :=
  store.tables.select_singleton_perm _

theorem mem_matching_iff {file : FileRecord} :
    file ∈ store.matching field op literal ↔
      file ∈ store.tables.files ∧
        ∃ operand ∈ field.operand? file (store.tables.fieldsOf file.id),
          operand.compares op literal := by
  rw [(store.matching_perm field op literal).mem_iff, filesWith, List.mem_filter, Option.any_eq_true]
  rfl

/-- A query of one predicate finds the files of which its comparison holds. -/
theorem files_search_eq_matching {query : String} (h : store.predicates query = [⟨field, op, literal⟩])
    {limit : Nat} (hlimit : store.tables.files.length ≤ limit) :
    (store.search query limit 0).files = store.matching field op literal := by
  rw [store.files_search query hlimit, h, matching]

theorem parts_filesWith {p q r : Operand → Bool} (h : ∀ operand, q operand = (r operand && !p operand))
    (hp : ∀ operand, p operand → r operand) :
    Parts (store.filesWith field p) (store.filesWith field q) (store.filesWith field r) := by
  refine Parts.of_filter _ (fun file => ?_) fun file => ?_
  · cases field.operand? file (store.tables.fieldsOf file.id) with
    | none => rfl
    | some operand => exact h operand
  · cases field.operand? file (store.tables.fieldsOf file.id) with
    | none => exact fun h => h
    | some operand => exact hp operand

/-- An operator and its opposite part the files that can be compared. -/
theorem parts_opposite (hop : op.isSubstring = false) :
    Parts (store.matching field op literal) (store.matching field op.opposite literal)
      (store.filesWith field fun operand => operand.isComparable op literal) := by
  have hparts := store.parts_filesWith field (p := fun operand => operand.compares op literal)
    (q := fun operand => operand.compares op.opposite literal)
    (r := fun operand => operand.isComparable op literal) (fun operand => ?_)
    fun operand => Operand.isComparable_of_compares hop
  · exact hparts.of_perm (store.matching_perm field _ _) (store.matching_perm field _ _) (.refl _)
  · cases hcomparable : operand.isComparable op literal with
    | true => exact Operand.compares_opposite hop hcomparable
    | false =>
      -- What the opposite accepts can be compared, with one operator as with the other.
      have hopposite : operand.isComparable op.opposite literal = operand.isComparable op literal := by
        cases literal <;> simp [Operand.isComparable]
      rw [Bool.false_and, ← Bool.not_eq_true]
      intro hcompares
      have hagain := Operand.isComparable_of_compares (by simpa using hop) hcompares
      rw [hopposite, hcomparable] at hagain
      cases hagain

/-- For sizes and numbers an operator that includes equality is the one without, and equality. -/
theorem parts_size {strict weak : Operator} (n : Double)
    (h : strict = .gt ∧ weak = .ge ∨ strict = .lt ∧ weak = .le) :
    Parts (store.matching (.file .size) strict (.number n))
      (store.matching (.file .size) .eq (.number n))
      (store.matching (.file .size) weak (.number n)) := by
  have hfiles : ∀ op : Operator, op.isSubstring = false →
      (store.matching (.file .size) op (.number n)).Perm (store.tables.files.filter fun file =>
        op.accepts (orderOf ((file.size : Int) * Double.one) n.toInt)) := by
    intro op hop
    have hcompares := store.matching_perm (.file .size) op (.number n)
    simpa only [filesWith, FieldRef.operand?, Option.any_some, Operand.compares_size hop]
      using hcompares
  have hsubstring : strict.isSubstring = false ∧ weak.isSubstring = false := by
    rcases h with ⟨rfl, rfl⟩ | ⟨rfl, rfl⟩ <;> exact ⟨rfl, rfl⟩
  refine (Parts.of_filter _ (fun file => ?_) fun file => ?_).of_perm (hfiles strict hsubstring.1)
    (hfiles .eq rfl) (hfiles weak hsubstring.2)
  all_goals
    cases orderOf ((file.size : Int) * Double.one) n.toInt <;>
      rcases h with ⟨rfl, rfl⟩ | ⟨rfl, rfl⟩ <;> simp [Operator.accepts]

/-- The operators compare by one order. Equality and inequality part the files that have the field. So do
an order and its opposite if the literal is a text or a truth value; if it is a number they part the files
whose field is one, and a larger number has more files below it and fewer above. For sizes the order with
equality is the one without, and equality. -/
theorem operators_compare_by_one_order :
    (∀ literal, Parts (store.matching field .eq literal) (store.matching field .ne literal)
      (store.having field)) ∧
    (∀ n, Parts (store.matching field .lt (.number n)) (store.matching field .ge (.number n))
        (store.havingNumber field) ∧
      Parts (store.matching field .le (.number n)) (store.matching field .gt (.number n))
        (store.havingNumber field)) ∧
    (∀ literal, (∀ n, literal ≠ .number n) →
      Parts (store.matching field .lt literal) (store.matching field .ge literal)
        (store.having field) ∧
      Parts (store.matching field .le literal) (store.matching field .gt literal)
        (store.having field)) ∧
    (∀ n m : Double, n.toInt ≤ m.toInt →
      store.matching field .lt (.number n) ⊆ store.matching field .lt (.number m) ∧
      store.matching field .gt (.number m) ⊆ store.matching field .gt (.number n)) ∧
    (∀ n, Parts (store.matching (.file .size) .gt (.number n))
        (store.matching (.file .size) .eq (.number n))
        (store.matching (.file .size) .ge (.number n)) ∧
      Parts (store.matching (.file .size) .lt (.number n))
        (store.matching (.file .size) .eq (.number n))
        (store.matching (.file .size) .le (.number n))) ∧
    (∀ column, store.having (.file column) = store.tables.files) ∧
    store.havingNumber (.file .size) = store.tables.files := by
  refine ⟨fun literal => ?_, fun n => ⟨?_, ?_⟩, fun literal hliteral => ?_, fun n m hle => ⟨?_, ?_⟩,
    fun n => ⟨?_, ?_⟩, fun column => ?_, ?_⟩
  · have hall : (fun operand : Operand => operand.isComparable .eq literal) = fun _ => true := by
      funext operand
      cases literal <;> rfl
    have hparts : Parts (store.matching field .eq literal) (store.matching field .ne literal) _ :=
      store.parts_opposite field rfl
    rwa [hall] at hparts
  · exact store.parts_opposite field rfl
  · exact store.parts_opposite field rfl
  · have hall : ∀ op, (fun operand : Operand => operand.isComparable op literal) = fun _ => true := by
      intro op
      funext operand
      cases literal with
      | number n => exact absurd rfl (hliteral n)
      | _ => rfl
    have hlt : Parts (store.matching field .lt literal) (store.matching field .ge literal) _ :=
      store.parts_opposite field rfl
    have hle : Parts (store.matching field .le literal) (store.matching field .gt literal) _ :=
      store.parts_opposite field rfl
    rw [hall] at hlt hle
    exact ⟨hlt, hle⟩
  · intro file
    simp only [mem_matching_iff]
    exact fun ⟨hfile, operand, hoperand, hcompares⟩ =>
      ⟨hfile, operand, hoperand, Operand.compares_lt_mono hle hcompares⟩
  · intro file
    simp only [mem_matching_iff]
    exact fun ⟨hfile, operand, hoperand, hcompares⟩ =>
      ⟨hfile, operand, hoperand, Operand.compares_gt_mono hle hcompares⟩
  · exact store.parts_size n (.inl ⟨rfl, rfl⟩)
  · exact store.parts_size n (.inr ⟨rfl, rfl⟩)
  · cases column <;> exact List.filter_eq_self.mpr fun _ _ => rfl
  · exact List.filter_eq_self.mpr fun _ _ => rfl

set_option maxRecDepth 2000 in
/-- Nine is below ten as a number and above it as a text, and what is no number is neither below nor
above. -/
theorem operators_compare_nine_and_ten :
    let files : Files.FileTree :=
      ⟨[(["a"], .file (.sound [1]) 0), (["b"], .file (.sound [1]) 0), (["c"], .file (.sound [1]) 0)]⟩
    let document := fun text => Json.Value.object [("exif", .object [("iso", .string text)])]
    let store := ((ofTables {} {}).upsert files "0" "a" (document "9") none none).1
    let store := (store.upsert files "1" "b" (document "10") none none).1
    let store := (store.upsert files "2" "c" (document "n/a") none none).1
    let iso : FieldRef := .field ⟨"exif", "iso"⟩
    let ten := Double.ofInt 10
    let ids := List.map FileRecord.id
    ((Double.ofInt 9).toInt ≤ ten.toInt ∧ ∀ n, Literal.text "10" ≠ .number n) ∧
      store.matching iso .lt (.number (Double.ofInt 9)) ⊆ store.matching iso .lt (.number ten) ∧
      Parts (store.matching iso .lt (.text "10")) (store.matching iso .ge (.text "10"))
        (store.having iso) ∧
      (ids (store.matching iso .lt (.number ten)), ids (store.matching iso .ge (.number ten))) =
        ([1], [2]) ∧
      (ids (store.matching iso .lt (.text "10")), ids (store.matching iso .ge (.text "10"))) =
        ([], [3, 2, 1]) := by
  intro files document first second store iso ten ids
  have hle : (Double.ofInt 9).toInt ≤ ten.toInt := by decide +kernel
  have htext : ∀ n, Literal.text "10" ≠ .number n := by
    intro n h
    cases h
  obtain ⟨-, -, htexts, hmono, -⟩ := store.operators_compare_by_one_order iso
  exact ⟨⟨hle, htext⟩, (hmono _ _ hle).1, (htexts _ htext).1, by decide +kernel, by decide +kernel⟩

end Store

end Catalog
