import Mathlib.Algebra.Group.Nat.Defs
import Mathlib.Data.List.Nodup
import PackageOutline.Outline.Edit

/-! # Slots and handles

`Outline.get?` is the view of an arena: what a handle leads to.  Every operation on slots is stated
through it.

* `get?_set`: writing an item changes what its own handle leads to, and nothing else.
* `FreeExact.allocate`, `get?_vacate`: the same for putting an item into a slot and emptying one;
  `Outline.Gained` is what the former comes to.
* `Outline.FreeExact` says that the list of free indices holds exactly the empty slots, each once;
  then distinct live handles are at most as many as there are items (`length_le_itemCount`).
* `Outline.AgreeOn f` relates outlines whose items look alike through `f`. -/

namespace PackageOutline

namespace Outline

variable {β γ : Type} {o o' o'' : Outline} {h x : Handle} {i j k : Item}

/-! ### Looking up -/

theorem get?_eq_some_iff :
    o.get? h = some i ↔ o.slots[h.index]? = some ⟨h.generation, some i⟩ := by
  unfold get?
  cases hs : o.slots[h.index]? with
  | none => simp
  | some slot =>
      obtain ⟨g, k⟩ := slot
      by_cases hg : g = h.generation <;> simp [hg]

theorem item_eq_ok_iff : o.item h = .ok i ↔ o.get? h = some i := by
  unfold item
  cases o.get? h <;> simp

theorem item_of_get? (hi : o.get? h = some i) : o.item h = .ok i := item_eq_ok_iff.mpr hi

theorem index_lt_of_get? (hi : o.get? h = some i) : h.index < o.slots.size := by
  obtain ⟨hlt, -⟩ := Array.getElem?_eq_some_iff.mp (get?_eq_some_iff.mp hi)
  exact hlt

theorem eq_of_index_eq (hi : o.get? h = some i) (hj : o.get? x = some j)
    (he : h.index = x.index) : h = x := by
  rw [get?_eq_some_iff] at hi hj
  rw [he, hj] at hi
  obtain ⟨n, g⟩ := h
  obtain ⟨m, g'⟩ := x
  simp_all

/-! ### Writing an item -/

@[simp] theorem size_set (o : Outline) (h : Handle) (i : Item) :
    (o.set h i).slots.size = o.slots.size := by simp [set]

@[simp] theorem document_set (o : Outline) (h : Handle) (i : Item) :
    (o.set h i).document = o.document := rfl

theorem get?_set_of_slot {k : Option Item} (hs : o.slots[h.index]? = some ⟨h.generation, k⟩)
    (j : Item) (x : Handle) : (o.set h j).get? x = if x = h then some j else o.get? x := by
  by_cases hx : h.index = x.index
  · unfold get? set
    simp only [Array.getElem?_modify, hx, ↓reduceIte]
    rw [← hx, hs]
    obtain ⟨n, g⟩ := h
    obtain ⟨m, g'⟩ := x
    obtain rfl : n = m := hx
    by_cases hg : g = g'
    · simp [hg]
    · simp [hg, Ne.symm hg]
  · have hne : x ≠ h := fun e => hx (by rw [e])
    unfold get? set
    simp [Array.getElem?_modify, hx, hne]

theorem get?_set (hi : o.get? h = some i) (j : Item) (x : Handle) :
    (o.set h j).get? x = if x = h then some j else o.get? x :=
  get?_set_of_slot (get?_eq_some_iff.mp hi) j x

theorem get?_set_self (hi : o.get? h = some i) (j : Item) : (o.set h j).get? h = some j := by
  rw [get?_set hi, if_pos rfl]

theorem get?_set_of_ne (hi : o.get? h = some i) (j : Item) (hx : x ≠ h) :
    (o.set h j).get? x = o.get? x := by
  rw [get?_set hi, if_neg hx]

/-- What is there after an item was written is that item, at its handle, or was there before. -/
theorem of_get?_set (hi : o.get? h = some i) (hk : (o.set h j).get? x = some k) :
    x = h ∧ k = j ∨ x ≠ h ∧ o.get? x = some k := by
  rw [get?_set hi] at hk
  split at hk
  · exact Or.inl ⟨‹_›, (Option.some.inj hk).symm⟩
  · exact Or.inr ⟨‹_›, hk⟩

theorem update_eq_ok_iff {f : Item → Item} :
    o.update h f = .ok o' ↔ ∃ i, o.get? h = some i ∧ o' = o.set h (f i) := by
  unfold update item
  cases o.get? h <;> simp [Except.map, @eq_comm _ o']

theorem update_of_get? (hi : o.get? h = some i) (f : Item → Item) :
    o.update h f = .ok (o.set h (f i)) := update_eq_ok_iff.mpr ⟨i, hi, rfl⟩

/-! ### Empty slots -/

/-- The free indices are those of the empty slots, each once. -/
structure FreeExact (o : Outline) : Prop where
  nodup : o.free.Nodup
  mem_iff : ∀ n, n ∈ o.free ↔ n < o.slots.size ∧ ∀ h i, o.get? h = some i → h.index ≠ n

theorem FreeExact.slot_empty (e : o.FreeExact) {n : Nat} (hn : n ∈ o.free) :
    ∃ g, o.slots[n]? = some ⟨g, none⟩ := by
  obtain ⟨hlt, hno⟩ := (e.mem_iff n).mp hn
  have hs : o.slots[n]? = some o.slots[n] := Array.getElem?_eq_getElem hlt
  rcases hk : o.slots[n] with ⟨g, _ | i⟩
  · exact ⟨g, by rw [hs, hk]⟩
  · have hi : o.get? ⟨n, g⟩ = some i := get?_eq_some_iff.mpr (by rw [hs, hk])
    exact absurd rfl (hno ⟨n, g⟩ i hi)

/-- Distinct live handles are at most as many as there are items. -/
theorem FreeExact.length_le_itemCount (e : o.FreeExact) {l : List Handle} (hl : l.Nodup)
    (live : ∀ h ∈ l, ∃ i, o.get? h = some i) : l.length ≤ o.itemCount := by
  have hinj : ∀ a ∈ l, ∀ b ∈ l, a.index = b.index → a = b := by
    intro a ha b hb hab
    obtain ⟨i, hi⟩ := live a ha
    obtain ⟨j, hj⟩ := live b hb
    exact eq_of_index_eq hi hj hab
  have hdisj : (l.map Handle.index ++ o.free).Nodup := by
    refine List.nodup_append.mpr ⟨hl.map_on fun a ha b hb => hinj a ha b hb, e.nodup, ?_⟩
    intro n hn m hm hnm
    obtain ⟨a, ha, rfl⟩ := List.mem_map.mp hn
    obtain ⟨i, hi⟩ := live a ha
    exact ((e.mem_iff m).mp hm).2 a i hi hnm
  have hsub : l.map Handle.index ++ o.free ⊆ List.range o.slots.size := by
    intro n hn
    rw [List.mem_range]
    rcases List.mem_append.mp hn with hn | hn
    · obtain ⟨a, ha, rfl⟩ := List.mem_map.mp hn
      obtain ⟨i, hi⟩ := live a ha
      exact index_lt_of_get? hi
    · exact ((e.mem_iff n).mp hn).1
  have hlen := hdisj.length_le_of_subset hsub
  simp only [List.length_append, List.length_map, List.length_range] at hlen
  unfold itemCount
  omega

theorem itemCount_le_size (o : Outline) : o.itemCount ≤ o.slots.size := Nat.sub_le _ _

/-! ### Putting an item into a slot -/

theorem FreeExact.get?_of_empty (e : o.FreeExact) {n : Nat} (hn : n ∈ o.free) {g : UInt32} :
    o.get? ⟨n, g⟩ = none := by
  cases hi : o.get? ⟨n, g⟩ with
  | none => rfl
  | some i => exact absurd rfl (((e.mem_iff n).mp hn).2 _ i hi)

theorem get?_push (hs : o'.slots = o.slots.push ⟨0, some i⟩) (x : Handle) :
    o'.get? x = if x = ⟨o.slots.size, 0⟩ then some i else o.get? x := by
  obtain ⟨n, g⟩ := x
  unfold get?
  simp only [hs, Array.getElem?_push, Handle.mk.injEq]
  by_cases hn : n = o.slots.size
  · subst hn
    by_cases hg : g = 0
    · simp [hg]
    · simp [hg, Ne.symm hg]
  · simp [hn]

/-- `Gained h i o o'`: the item `i` was put where `h` leads, which led nowhere before. -/
structure Gained (h : Handle) (i : Item) (o o' : Outline) : Prop where
  fresh : o.get? h = none
  get : ∀ x, o'.get? x = if x = h then some i else o.get? x
  document : o'.document = o.document

namespace Gained

theorem self (g : Gained h i o o') : o'.get? h = some i := by
  rw [g.get, if_pos rfl]

theorem ne (g : Gained h i o o') (hk : o.get? x = some k) : x ≠ h := by
  rintro rfl
  rw [g.fresh] at hk
  cases hk

theorem elsewhere (g : Gained h i o o') (hk : o.get? x = some k) : o'.get? x = some k := by
  rw [g.get, if_neg (g.ne hk), hk]

theorem new_or_old (g : Gained h i o o') (hk : o'.get? x = some k) :
    x = h ∧ k = i ∨ o.get? x = some k := by
  rw [g.get] at hk
  split at hk
  · exact Or.inl ⟨‹_›, (Option.some.inj hk).symm⟩
  · exact Or.inr hk

end Gained

theorem FreeExact.fill (e : o.FreeExact) (g : Gained h i o o') (hnd : o'.free.Nodup)
    (hfree : ∀ n, n ∈ o'.free ↔ n ∈ o.free ∧ n ≠ h.index)
    (hsize : ∀ n, n < o'.slots.size ↔ n < o.slots.size ∨ n = h.index) : o'.FreeExact := by
  refine ⟨hnd, fun n => ?_⟩
  rw [hfree, hsize, e.mem_iff]
  constructor
  · rintro ⟨⟨hlt, hno⟩, hne⟩
    refine ⟨Or.inl hlt, fun x j hj => ?_⟩
    rcases g.new_or_old hj with ⟨rfl, -⟩ | hj
    · exact Ne.symm hne
    · exact hno x j hj
  · rintro ⟨hlt, hno⟩
    have hne : h.index ≠ n := hno h i g.self
    exact ⟨⟨by omega, fun x j hj => hno x j (g.elsewhere hj)⟩, Ne.symm hne⟩

/-- An item goes to the first free slot, in the generation that the slot has, or to a new one. -/
theorem allocate_eq_ok (ha : o.allocate i = .ok (h, o')) :
    (∃ free, o.free = h.index :: free ∧
      h.generation = (o.slots[h.index]?.map Slot.generation).getD 0 ∧
      o' = { o.set h i with free }) ∨
    (o.free = [] ∧ h = ⟨o.slots.size, 0⟩ ∧ o' = { o with slots := o.slots.push ⟨0, some i⟩ }) := by
  unfold Outline.allocate at ha
  cases hf : o.free with
  | nil =>
      simp only [hf] at ha
      split at ha
      · obtain ⟨rfl, rfl⟩ := Prod.mk.inj (Except.ok.inj ha)
        exact Or.inr ⟨rfl, rfl, rfl⟩
      · cases ha
  | cons n free =>
      simp only [hf] at ha
      obtain ⟨rfl, rfl⟩ := Prod.mk.inj (Except.ok.inj ha)
      exact Or.inl ⟨free, rfl, rfl, rfl⟩

theorem FreeExact.allocate_eq_ok (e : o.FreeExact) (ha : o.allocate i = .ok (h, o')) :
    (∃ free, o.free = h.index :: free ∧ o.slots[h.index]? = some ⟨h.generation, none⟩ ∧
      o' = { o.set h i with free }) ∨
    (o.free = [] ∧ h = ⟨o.slots.size, 0⟩ ∧ o' = { o with slots := o.slots.push ⟨0, some i⟩ }) := by
  rcases Outline.allocate_eq_ok ha with ⟨free, hf, hgen, ho⟩ | hnew
  · obtain ⟨g, hs⟩ := e.slot_empty (n := h.index) (by rw [hf]; exact List.mem_cons_self)
    rw [hs, Option.map_some, Option.getD_some] at hgen
    exact Or.inl ⟨free, hf, by rw [hgen, hs], ho⟩
  · exact Or.inr hnew

/-- A new item gets a handle that leads nowhere so far. -/
theorem FreeExact.allocate (e : o.FreeExact) (ha : o.allocate i = .ok (h, o')) :
    Gained h i o o' ∧ o'.FreeExact := by
  rcases e.allocate_eq_ok ha with ⟨free, hf, hs, rfl⟩ | ⟨hf, rfl, rfl⟩
  · have hmem : h.index ∈ o.free := by rw [hf]; exact List.mem_cons_self
    have hnd := e.nodup
    rw [hf] at hnd
    obtain ⟨hn, hnd⟩ := List.nodup_cons.mp hnd
    have g : Gained h i o { o.set h i with free } :=
      ⟨e.get?_of_empty hmem, get?_set_of_slot hs i, rfl⟩
    refine ⟨g, e.fill g hnd ?_ ?_⟩
    · intro m
      rw [hf, List.mem_cons]
      constructor
      · intro hm
        exact ⟨Or.inr hm, by rintro rfl; exact hn hm⟩
      · rintro ⟨rfl | hm, hne⟩
        · exact absurd rfl hne
        · exact hm
    · intro m
      have hlt := ((e.mem_iff h.index).mp hmem).1
      show m < (o.set h i).slots.size ↔ m < o.slots.size ∨ m = h.index
      rw [size_set]
      omega
  · have hnone : o.get? ⟨o.slots.size, 0⟩ = none := by
      cases hi : o.get? ⟨o.slots.size, 0⟩ with
      | none => rfl
      | some j => exact absurd (index_lt_of_get? hi) (Nat.lt_irrefl _)
    have g : Gained ⟨o.slots.size, 0⟩ i o { o with slots := o.slots.push ⟨0, some i⟩ } :=
      ⟨hnone, get?_push rfl, rfl⟩
    refine ⟨g, e.fill g ?_ ?_ ?_⟩
    · show o.free.Nodup
      rw [hf]
      exact List.nodup_nil
    · intro m
      show m ∈ o.free ↔ m ∈ o.free ∧ m ≠ o.slots.size
      simp [hf]
    · intro n
      rw [Array.size_push]
      show n < o.slots.size + 1 ↔ n < o.slots.size ∨ n = o.slots.size
      omega

/-! ### Emptying a slot -/

/-- The outline in which the slot of a handle is emptied. -/
def vacate (o : Outline) (h : Handle) : Outline :=
  { o with
    slots := o.slots.modify h.index fun slot => ⟨slot.generation + 1, none⟩
    free := h.index :: o.free }

/-- A release takes the item out of its slot, which goes on to the next generation and is free. -/
theorem release_eq_ok (hr : o.release h = .ok (i, o')) : o' = o.vacate h := by
  unfold Outline.release at hr
  split at hr
  · cases hr
  · exact (Prod.mk.inj (Except.ok.inj hr)).2.symm

theorem release_of_get? (hi : o.get? h = some i) : o.release h = .ok (i, o.vacate h) := by
  unfold Outline.release
  simp only [get?_eq_some_iff.mp hi, Option.bind_some]
  rfl

@[simp] theorem size_vacate (o : Outline) (h : Handle) :
    (o.vacate h).slots.size = o.slots.size := by simp [vacate]

/-- Nothing but the handle itself led to the slot of a live handle. -/
theorem get?_vacate (hi : o.get? h = some i) (x : Handle) :
    (o.vacate h).get? x = if x = h then none else o.get? x := by
  by_cases hx : h.index = x.index
  · have hnone : x ≠ h → o.get? x = none := by
      intro hne
      cases hj : o.get? x with
      | none => rfl
      | some j => exact absurd (eq_of_index_eq hi hj hx) (Ne.symm hne)
    have hz : (if x = h then none else o.get? x) = none := by
      split
      · rfl
      · exact hnone ‹_›
    rw [hz]
    unfold get? vacate
    simp only [Array.getElem?_modify, if_pos hx]
    rw [← hx, get?_eq_some_iff.mp hi]
    simp
  · rw [if_neg fun hxh => hx (by rw [hxh])]
    unfold get? vacate
    simp [Array.getElem?_modify, hx]

theorem FreeExact.vacate (e : o.FreeExact) (hi : o.get? h = some i) : (o.vacate h).FreeExact := by
  -- the handles that lead somewhere afterwards are the others that did before
  have hno : ∀ n, (∀ x j, (o.vacate h).get? x = some j → x.index ≠ n) ↔
      ∀ x j, x ≠ h → o.get? x = some j → x.index ≠ n := by
    intro n
    constructor
    · exact fun hno x j hx hj => hno x j (by rw [get?_vacate hi, if_neg hx, hj])
    · intro hno x j hj
      rw [get?_vacate hi] at hj
      split at hj
      · cases hj
      · exact hno x j ‹_› hj
  refine ⟨List.nodup_cons.mpr ⟨fun hmem => ?_, e.nodup⟩, fun n => ?_⟩
  · exact ((e.mem_iff _).mp hmem).2 h i hi rfl
  · rw [size_vacate, hno]
    show n ∈ h.index :: o.free ↔ _
    rw [List.mem_cons]
    constructor
    · rintro (rfl | hn)
      · exact ⟨index_lt_of_get? hi, fun x j hx hj he => hx (eq_of_index_eq hj hi he)⟩
      · obtain ⟨hlt, hno⟩ := (e.mem_iff n).mp hn
        exact ⟨hlt, fun x j _ hj => hno x j hj⟩
    · rintro ⟨hlt, hno⟩
      by_cases hn : n = h.index
      · exact Or.inl hn
      · refine Or.inr ((e.mem_iff n).mpr ⟨hlt, fun x j hj => ?_⟩)
        by_cases hxh : x = h
        · rw [hxh]
          exact Ne.symm hn
        · exact hno x j hxh hj

/-- Releasing a live handle empties its slot. -/
theorem FreeExact.release (e : o.FreeExact) (hi : o.get? h = some i) :
    ∃ o', o.release h = .ok (i, o') ∧ (∀ x, o'.get? x = if x = h then none else o.get? x) ∧
      o'.document = o.document ∧ o'.slots.size = o.slots.size ∧ o'.FreeExact :=
  ⟨_, release_of_get? hi, get?_vacate hi, rfl, size_vacate o h, e.vacate hi⟩

theorem FreeExact.released (e : o.FreeExact) (hi : o.get? h = some i)
    (hr : o.release h = .ok (j, o')) : (∀ x, o'.get? x = if x = h then none else o.get? x) ∧
      o'.document = o.document ∧ o'.slots.size = o.slots.size ∧ o'.FreeExact := by
  obtain ⟨_, hr', hleft⟩ := e.release hi
  rw [hr] at hr'
  obtain rfl := (Prod.mk.inj (Except.ok.inj hr')).2
  exact hleft

/-! ### Outlines that look alike -/

/-- The outlines have the same slots, and their items look alike through `f`. -/
structure AgreeOn (f : Item → β) (o o' : Outline) : Prop where
  size : o'.slots.size = o.slots.size
  free : o'.free = o.free
  get : ∀ h, (o'.get? h).map f = (o.get? h).map f

theorem AgreeOn.refl (f : Item → β) (o : Outline) : AgreeOn f o o := ⟨rfl, rfl, fun _ => rfl⟩

theorem AgreeOn.symm {f : Item → β} (a : AgreeOn f o o') : AgreeOn f o' o :=
  ⟨a.size.symm, a.free.symm, fun h => (a.get h).symm⟩

theorem AgreeOn.trans {f : Item → β} (a : AgreeOn f o o') (b : AgreeOn f o' o'') :
    AgreeOn f o o'' :=
  ⟨b.size.trans a.size, b.free.trans a.free, fun h => (b.get h).trans (a.get h)⟩

theorem AgreeOn.comp {f : Item → β} (a : AgreeOn f o o') {g : Item → γ} (k : β → γ)
    (hk : ∀ i, g i = k (f i)) : AgreeOn g o o' := by
  refine ⟨a.size, a.free, fun h => ?_⟩
  have hg : g = k ∘ f := funext hk
  rw [hg, ← Option.map_map, ← Option.map_map, a.get]

theorem AgreeOn.set {f : Item → β} (hi : o.get? h = some i) (hj : f j = f i) :
    AgreeOn f o (o.set h j) := by
  refine ⟨size_set o h j, rfl, fun x => ?_⟩
  rw [get?_set hi]
  by_cases hx : x = h
  · rw [if_pos hx, hx, hi, Option.map_some, Option.map_some, hj]
  · rw [if_neg hx]

theorem AgreeOn.get?_eq_some {f : Item → β} (a : AgreeOn f o o') (hi : o.get? h = some i) :
    ∃ j, o'.get? h = some j ∧ f j = f i := by
  have hm := a.get h
  rw [hi, Option.map_some] at hm
  obtain ⟨j, hj, hji⟩ := Option.map_eq_some_iff.mp hm
  exact ⟨j, hj, hji⟩

theorem AgreeOn.freeExact {f : Item → β} (a : AgreeOn f o o') (e : o.FreeExact) :
    o'.FreeExact := by
  refine ⟨by rw [a.free]; exact e.nodup, fun n => ?_⟩
  rw [a.free, a.size, e.mem_iff]
  constructor
  · rintro ⟨hlt, hno⟩
    refine ⟨hlt, fun h i hi => ?_⟩
    obtain ⟨j, hj, -⟩ := a.symm.get?_eq_some hi
    exact hno h j hj
  · rintro ⟨hlt, hno⟩
    refine ⟨hlt, fun h i hi => ?_⟩
    obtain ⟨j, hj, -⟩ := a.get?_eq_some hi
    exact hno h j hj

end Outline

end PackageOutline
