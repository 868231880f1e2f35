import Mathlib.Data.List.Dedup
import PackageOutline.Entries

/-! # Entries by key

What look-up by key finds, and what is left of entries in which keys may repeat.

* `get?_put_self`, `get?_put_of_ne`: writing a key at the end is looked up like writing it in place.
* `Entries.lastOnly`: of several entries with one key only the last, where it stands.
* `Entries.ofList_eq`: that is what writing the entries one after the other leaves. -/

namespace PackageOutline

namespace Entries

variable {κ β : Type} [DecidableEq κ] {k : κ} {v : β} {es fs : List (κ × β)}

theorem mem_of_get? (h : get? k es = some v) : (k, v) ∈ es := by
  induction es with
  | nil => cases h
  | cons e es ih =>
      obtain ⟨j, w⟩ := e
      rw [get?] at h
      split at h
      · rename_i hj
        rw [hj, Option.some.inj h]
        exact List.mem_cons_self
      · exact List.mem_cons_of_mem _ (ih h)

theorem mem_keys_of_get? (h : get? k es = some v) : k ∈ keys es := List.mem_map_of_mem (mem_of_get? h)

theorem exists_of_mem_keys (h : k ∈ keys es) : ∃ v, get? k es = some v := by
  cases hv : get? k es with
  | some v => exact ⟨v, rfl⟩
  | none => exact absurd h (get?_eq_none_iff.mp hv)

theorem get?_of_mem (hk : (keys es).Nodup) (h : (k, v) ∈ es) : get? k es = some v := by
  induction es with
  | nil => cases h
  | cons e es ih =>
      obtain ⟨j, w⟩ := e
      rw [keys_cons, List.nodup_cons] at hk
      rw [get?]
      rcases List.mem_cons.mp h with he | h
      · obtain ⟨rfl, rfl⟩ := Prod.mk.inj he
        rw [if_pos rfl]
      · have hmem : k ∈ keys es := List.mem_map_of_mem h
        have hne : j ≠ k := by
          rintro rfl
          exact hk.1 hmem
        rw [if_neg hne, ih hk.2 h]

theorem get?_of_perm (hp : es.Perm fs) (hk : (keys fs).Nodup) (k : κ) : get? k es = get? k fs := by
  have hk' : (keys es).Nodup := (hp.map Prod.fst).nodup_iff.mpr hk
  have one : ∀ {es fs : List (κ × β)}, es.Perm fs → (keys fs).Nodup → ∀ v, get? k es = some v →
      get? k fs = some v := fun hp hk v h => get?_of_mem hk (hp.mem_iff.mp (mem_of_get? h))
  exact Option.ext fun v => ⟨one hp hk v, one hp.symm hk' v⟩

/-! ### Writing entries -/

theorem get?_append (k : κ) (es fs : List (κ × β)) :
    get? k (es ++ fs) = (get? k es).or (get? k fs) := by
  induction es with
  | nil => rfl
  | cons e es ih =>
      obtain ⟨j, w⟩ := e
      rw [List.cons_append, get?, get?, ih]
      split <;> rfl

theorem erase_append (k : κ) (es fs : List (κ × β)) :
    erase k (es ++ fs) = erase k es ++ erase k fs := List.filter_append ..

theorem get?_erase_self (k : κ) (es : List (κ × β)) : get? k (erase k es) = none := by
  rw [get?_eq_none_iff, keys_erase]
  simp

theorem get?_erase_of_ne {j : κ} (h : j ≠ k) (es : List (κ × β)) :
    get? j (erase k es) = get? j es := by
  induction es with
  | nil => rfl
  | cons e es ih =>
      obtain ⟨i, w⟩ := e
      unfold erase at ih ⊢
      rw [List.filter_cons, get?]
      by_cases hi : i = k
      · rw [if_neg (by simp [hi]), if_neg (by rw [hi]; exact Ne.symm h), ih]
      · rw [if_pos (by simp [hi]), get?, ih]

@[simp] theorem get?_put_self (k : κ) (v : β) (es : List (κ × β)) : get? k (put k v es) = some v := by
  rw [put, get?_append, get?_erase_self, Option.none_or, get?, if_pos rfl]

theorem get?_put_of_ne {j : κ} (h : j ≠ k) (v : β) (es : List (κ × β)) :
    get? j (put k v es) = get? j es := by
  rw [put, get?_append, get?_erase_of_ne h, get?, if_neg (Ne.symm h), get?, Option.or_none]

theorem mem_put {e : κ × β} (h : e ∈ put k v es) : e = (k, v) ∨ e ∈ es := by
  rcases List.mem_append.mp h with h | h
  · exact .inr (List.mem_of_mem_filter h)
  · exact .inl (List.mem_singleton.mp h)

theorem mem_set {e : κ × β} (h : e ∈ set k v es) : e = (k, v) ∨ e ∈ es := by
  induction es with
  | nil => exact .inl (List.mem_singleton.mp h)
  | cons f es ih =>
      obtain ⟨j, w⟩ := f
      rw [set] at h
      split at h
      · rcases List.mem_cons.mp h with h | h
        · exact .inl h
        · exact .inr (List.mem_cons_of_mem _ h)
      · rcases List.mem_cons.mp h with rfl | h
        · exact .inr List.mem_cons_self
        · exact (ih h).imp_right (List.mem_cons_of_mem _)

theorem nodup_keys_put (hn : (keys es).Nodup) (k : κ) (v : β) : (keys (put k v es)).Nodup := by
  rw [keys_put, List.nodup_append]
  refine ⟨hn.filter _, List.nodup_singleton k, fun j hj m hm => ?_⟩
  rw [List.mem_singleton.mp hm]
  simpa using (List.mem_filter.mp hj).2

theorem nodup_keys_set (hn : (keys es).Nodup) (k : κ) (v : β) : (keys (set k v es)).Nodup := by
  by_cases hk : k ∈ keys es
  · rwa [keys_set_of_mem hk]
  · rw [keys_set_of_not_mem hk]
    exact hn.append (List.nodup_singleton k) (List.disjoint_singleton.mpr hk)

theorem eq_erase_append (hn : (keys es).Nodup) (hl : (keys es).getLast? = some k)
    (hv : get? k es = some v) : es = erase k es ++ [(k, v)] := by
  obtain ⟨fs, e, rfl⟩ : ∃ fs e, es = fs ++ [e] := by
    rcases List.eq_nil_or_concat' es with rfl | hes
    · cases hv
    · exact hes
  obtain ⟨j, w⟩ := e
  rw [keys_append, keys_cons, keys_nil, List.getLast?_concat] at hl
  obtain rfl := Option.some.inj hl
  rw [keys_append, List.nodup_append] at hn
  have hfresh : j ∉ keys fs := fun hmem => hn.2.2 j hmem j List.mem_cons_self rfl
  rw [get?_append, get?_eq_none_iff.mpr hfresh, Option.none_or, get?, if_pos rfl] at hv
  have hkeep : erase j fs = fs := by
    refine List.filter_eq_self.mpr fun e he => ?_
    simpa using fun h : e.1 = j => hfresh (h ▸ List.mem_map_of_mem he)
  have hlast : erase j [(j, w)] = [] := List.filter_eq_nil_iff.mpr (by simp)
  rw [← Option.some.inj hv, erase_append, hkeep, hlast, List.append_nil]

/-! ### Repeated keys -/

/-- The entries whose keys do not come again later. -/
def lastOnly : List (κ × β) → List (κ × β)
  | [] => []
  | e :: es => if e.1 ∈ keys es then lastOnly es else e :: lastOnly es

theorem lastOnly_sublist (es : List (κ × β)) : (lastOnly es).Sublist es := by
  induction es with
  | nil => exact List.Sublist.slnil
  | cons e es ih =>
      rw [lastOnly]
      split
      · exact ih.cons e
      · exact ih.cons_cons e

theorem nodup_keys_lastOnly (es : List (κ × β)) : (keys (lastOnly es)).Nodup := by
  induction es with
  | nil => exact List.nodup_nil
  | cons e es ih =>
      rw [lastOnly]
      split
      · exact ih
      · rename_i hmem
        refine List.nodup_cons.mpr ⟨fun h => hmem ?_, ih⟩
        exact ((lastOnly_sublist es).map Prod.fst).subset h

theorem lastOnly_of_nodup (h : (keys es).Nodup) : lastOnly es = es := by
  induction es with
  | nil => rfl
  | cons e es ih =>
      rw [keys_cons, List.nodup_cons] at h
      rw [lastOnly, if_neg h.1, ih h.2]

theorem mem_keys_lastOnly (h : k ∈ keys es) : k ∈ keys (lastOnly es) := by
  induction es with
  | nil => cases h
  | cons e es ih =>
      rw [lastOnly]
      split
      · rename_i hmem
        rcases List.mem_cons.mp h with rfl | h
        · exact ih hmem
        · exact ih h
      · rcases List.mem_cons.mp h with rfl | h
        · exact List.mem_cons_self
        · exact List.mem_cons_of_mem _ (ih h)

theorem keys_lastOnly (es : List (κ × β)) : keys (lastOnly es) = (keys es).dedup := by
  induction es with
  | nil => rfl
  | cons e es ih =>
      rw [lastOnly, keys_cons]
      split
      · rename_i hmem
        rw [List.dedup_cons_of_mem hmem, ih]
      · rename_i hmem
        rw [List.dedup_cons_of_notMem hmem, keys_cons, ih]

/-- Writing entries one after the other leaves those whose keys do not come again. -/
theorem ofList_eq (es : List (κ × β)) : ofList es = lastOnly es := by
  have hfold : ∀ (es acc : List (κ × β)), es.foldl (fun acc e => put e.1 e.2 acc) acc =
      acc.filter (fun e => e.1 ∉ keys es) ++ lastOnly es := by
    intro es
    induction es with
    | nil => simp [lastOnly]
    | cons e es ih =>
        intro acc
        rw [List.foldl_cons, ih, put, List.filter_append, erase, List.filter_filter, lastOnly]
        have hkeys : ∀ a : κ × β, (decide (a.1 ∉ keys es) && decide (a.1 ≠ e.1)) =
            decide (a.1 ∉ keys (e :: es)) := by
          intro a
          simp [Bool.and_comm]
        simp only [hkeys]
        split
        · simp [*]
        · simp [*]
  rw [ofList, hfold es [], List.filter_nil, List.nil_append]

theorem mem_ofList {e : κ × β} (h : e ∈ ofList es) : e ∈ es := by
  rw [ofList_eq] at h
  exact (lastOnly_sublist es).subset h

theorem mem_keys_ofList (h : k ∈ keys es) : k ∈ keys (ofList es) := by
  rw [ofList_eq]
  exact mem_keys_lastOnly h

end Entries

end PackageOutline
