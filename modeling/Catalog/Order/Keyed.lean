/-! Lists of keys and values in ascending order of keys, one value for each key. -/

namespace Catalog.Order

variable {κ α : Type} [LT κ] [DecidableLT κ] [DecidableEq κ]

/-- The list with `value` under `key`, in place of the value that was there. -/
def put (key : κ) (value : α) : List (κ × α) → List (κ × α)
  | [] => [(key, value)]
  | (k, v) :: rest =>
    if key < k then (key, value) :: (k, v) :: rest
    else if key = k then (key, value) :: rest
    else (k, v) :: put key value rest

omit [LT κ] [DecidableLT κ] in
/-- The value under a key. -/
def get? (key : κ) (entries : List (κ × α)) : Option α :=
  (entries.find? fun e => decide (e.1 = key)).map (·.2)

/-- The entries in order of keys; of entries with one key the last one stays. -/
def keyed (entries : List (κ × α)) : List (κ × α) :=
  entries.foldl (fun sorted e => put e.1 e.2 sorted) []

omit [LT κ] [DecidableLT κ] in
@[simp] theorem get?_nil (key : κ) : get? key ([] : List (κ × α)) = none := rfl

omit [LT κ] [DecidableLT κ] in
theorem get?_cons (key k : κ) (v : α) (rest : List (κ × α)) :
    get? key ((k, v) :: rest) = if k = key then some v else get? key rest := by
  by_cases h : k = key <;> simp [get?, h]

/-- What was put under a key is found under it. -/
theorem get?_put_self (key : κ) (value : α) (entries : List (κ × α)) :
    get? key (put key value entries) = some value := by
  induction entries with
  | nil => simp [put, get?_cons]
  | cons e rest ih =>
    obtain ⟨k, v⟩ := e
    unfold put
    split
    · simp [get?_cons]
    · split
      · simp [get?_cons]
      · rename_i hk
        simp [get?_cons, ih, Ne.symm hk]

/-- Other keys keep their values. -/
theorem get?_put_of_ne {key other : κ} (h : other ≠ key) (value : α) (entries : List (κ × α)) :
    get? other (put key value entries) = get? other entries := by
  induction entries with
  | nil => simp [put, get?_cons, h.symm]
  | cons e rest ih =>
    obtain ⟨k, v⟩ := e
    unfold put
    split
    · simp [get?_cons, h.symm]
    · split
      · rename_i hk
        subst hk
        simp [get?_cons, h.symm]
      · simp [get?_cons, ih]

end Catalog.Order
