/-! # Ordered entries

Finite maps whose order counts: lists of keys and values in which the order of the entries is the
order in which they are shown.  There are two ways to write a key that is already there: `set`
keeps its position, `put` moves it to the end.  Both write a new key at the end.

The keys after each operation are given by `keys_set_of_mem`, `keys_set_of_not_mem`, `keys_put`. -/

namespace PackageOutline

namespace Entries

variable {κ β : Type}

/-- The keys, in order. -/
def keys (es : List (κ × β)) : List κ := es.map Prod.fst

@[simp] theorem keys_nil : keys ([] : List (κ × β)) = [] := rfl

@[simp] theorem keys_cons (e : κ × β) (es : List (κ × β)) : keys (e :: es) = e.1 :: keys es := rfl

@[simp] theorem keys_append (es fs : List (κ × β)) : keys (es ++ fs) = keys es ++ keys fs := by
  simp [keys]

variable [DecidableEq κ]

/-- The value at a key. -/
def get? (k : κ) : List (κ × β) → Option β
  | [] => none
  | (k', v) :: es => if k' = k then some v else get? k es

/-- Whether a key is there. -/
def has (k : κ) (es : List (κ × β)) : Bool := (get? k es).isSome

/-- Writes a key, in place when it is there and at the end otherwise. -/
def set (k : κ) (v : β) : List (κ × β) → List (κ × β)
  | [] => [(k, v)]
  | (k', v') :: es => if k' = k then (k, v) :: es else (k', v') :: set k v es

/-- Leaves out a key. -/
def erase (k : κ) (es : List (κ × β)) : List (κ × β) := es.filter fun e => e.1 ≠ k

/-- Writes a key at the end. -/
def put (k : κ) (v : β) (es : List (κ × β)) : List (κ × β) := erase k es ++ [(k, v)]

/-- The entries of a list in which keys may repeat: the last value counts, at the last
position. -/
def ofList (es : List (κ × β)) : List (κ × β) := es.foldl (fun acc e => put e.1 e.2 acc) []

theorem get?_eq_none_iff {k : κ} {es : List (κ × β)} : get? k es = none ↔ k ∉ keys es := by
  induction es with
  | nil => simp [get?]
  | cons e es ih =>
    obtain ⟨k', v⟩ := e
    by_cases h : k' = k
    · simp [get?, h]
    · simp [get?, h, ih, Ne.symm h]

@[simp] theorem get?_set_self (k : κ) (v : β) (es : List (κ × β)) :
    get? k (set k v es) = some v := by
  induction es with
  | nil => simp [set, get?]
  | cons e es ih =>
    obtain ⟨k', v'⟩ := e
    by_cases h : k' = k <;> simp [set, get?, h, ih]

theorem get?_set_of_ne {k k' : κ} (h : k' ≠ k) (v : β) (es : List (κ × β)) :
    get? k' (set k v es) = get? k' es := by
  induction es with
  | nil => simp [set, get?, Ne.symm h]
  | cons e es ih =>
    obtain ⟨j, w⟩ := e
    by_cases hj : j = k
    · subst hj; simp [set, get?, Ne.symm h]
    · simp only [set, if_neg hj, get?, ih]

theorem keys_set_of_mem {k : κ} {es : List (κ × β)} (h : k ∈ keys es) (v : β) :
    keys (set k v es) = keys es := by
  induction es with
  | nil => simp at h
  | cons e es ih =>
    obtain ⟨j, w⟩ := e
    by_cases hj : j = k
    · simp [set, hj]
    · have : k ∈ keys es := by simpa [Ne.symm hj] using h
      simp [set, hj, ih this]

theorem keys_set_of_not_mem {k : κ} {es : List (κ × β)} (h : k ∉ keys es) (v : β) :
    keys (set k v es) = keys es ++ [k] := by
  induction es with
  | nil => simp [set]
  | cons e es ih =>
    obtain ⟨j, w⟩ := e
    simp only [keys_cons, List.mem_cons, not_or] at h
    simp [set, Ne.symm h.1, ih h.2]

theorem keys_erase (k : κ) (es : List (κ × β)) : keys (erase k es) = (keys es).filter (· ≠ k) := by
  simp [keys, erase, List.filter_map, Function.comp_def]

theorem keys_put (k : κ) (v : β) (es : List (κ × β)) :
    keys (put k v es) = (keys es).filter (· ≠ k) ++ [k] := by
  simp [put, keys_erase]

end Entries

end PackageOutline
