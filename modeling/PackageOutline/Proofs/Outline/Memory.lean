import PackageOutline.Proofs.Outline.Marks

/-! # Marks taken away

What computing images does to an outline: it takes marks away (`Outline.Cleared`) and fills memory,
which stays coherent (`Outline.Kept`).  An item loses its mark when its children are clean
(`DirtyClosed.clear`), and a clean item may remember its image (`Coherent.remember`). -/

namespace PackageOutline

namespace Outline

variable {o o₁ o' o'' : Outline} {h x c : Handle} {i j : Item} {P Q : Handle → Prop}

/-- Marks were taken away, of some of the items that have the property, and nothing else was done to
the tree. -/
structure Cleared (P : Handle → Prop) (o o' : Outline) : Prop where
  tree : SameTree o o'
  off : ∀ {x}, ¬ P x → (o'.get? x).map Item.dirty = (o.get? x).map Item.dirty
  less : ∀ {x j}, o'.get? x = some j → j.dirty = true → ∃ i, o.get? x = some i ∧ i.dirty = true

namespace Cleared

theorem refl (P : Handle → Prop) (o : Outline) : Cleared P o o :=
  ⟨.refl o, fun _ => rfl, fun hj hd => ⟨_, hj, hd⟩⟩

theorem trans (m : Cleared P o o') (m' : Cleared P o' o'') : Cleared P o o'' := by
  refine ⟨m.tree.trans m'.tree, fun hx => (m'.off hx).trans (m.off hx), fun hj hd => ?_⟩
  obtain ⟨j', hj', hd'⟩ := m'.less hj hd
  exact m.less hj' hd'

theorem mono (m : Cleared P o o') (hPQ : ∀ {x}, P x → Q x) : Cleared Q o o' :=
  ⟨m.tree, fun hx => m.off fun hp => hx (hPQ hp), m.less⟩

theorem clean (m : Cleared P o o') (hc : ∀ i, o.get? x = some i → i.dirty = false) :
    ∀ j, o'.get? x = some j → j.dirty = false := by
  intro j hj
  cases hd : j.dirty with
  | false => rfl
  | true =>
      obtain ⟨i, hi, hdi⟩ := m.less hj hd
      rw [hc i hi] at hdi
      cases hdi

theorem dirtyClosed (m : Cleared (fun _ => False) o o') (d : o.DirtyClosed) : o'.DirtyClosed := by
  refine d.congr ⟨m.tree.agree.size, m.tree.agree.free, fun x => ?_⟩
  have hd := m.off (x := x) not_false
  have hp := (m.tree.frame.comp (g := Item.parent) (fun f => f.2.2.1) fun _ => rfl).get x
  cases hi : o.get? x <;> cases hj : o'.get? x <;> simp_all

theorem set (hi : o.get? h = some i) (hb : j.bare = i.bare) (hd : j.dirty = true → i.dirty = true)
    (hP : P h ∨ j.dirty = i.dirty) : Cleared P o (o.set h j) := by
  refine ⟨.set hi hb, fun {x} hx => ?_, fun {x k} hk hdirty => ?_⟩
  · rw [get?_set hi]
    split
    · rename_i hxh
      have hsame := hP.resolve_left (hxh ▸ hx)
      rw [hxh, hi, Option.map_some, Option.map_some, hsame]
    · rfl
  · rcases of_get?_set hi hk with ⟨rfl, rfl⟩ | ⟨-, hk⟩
    · exact ⟨i, hi, hd hdirty⟩
    · exact ⟨k, hk, hdirty⟩

end Cleared

/-- Marks were taken away, and what clean items remember are their images. -/
structure Kept (P : Handle → Prop) (o o' : Outline) : Prop where
  cleared : Cleared P o o'
  coherent : o'.Coherent

theorem Kept.after (k : Kept P o' o'') (m : Cleared P o o') : Kept P o o'' :=
  ⟨m.trans k.cleared, k.coherent⟩

theorem Kept.mono (k : Kept P o o') (hPQ : ∀ {x}, P x → Q x) : Kept Q o o' :=
  ⟨k.cleared.mono hPQ, k.coherent⟩

/-- Above a dirty item all is dirty. -/
theorem DirtyClosed.of_below (d : o.DirtyClosed) (hb : o.Below h x) (hi : o.get? h = some i)
    (hj : o.get? x = some j) (hd : j.dirty = true) : i.dirty = true := by
  induction hb generalizing j with
  | self =>
      rw [hi] at hj
      rw [Option.some.inj hj, hd]
  | @step y p k hk hp hb ih =>
      rw [hk] at hj
      obtain rfl := Option.some.inj hj
      obtain ⟨m, hm⟩ := hb.live hi
      exact ih hm (d hk hd hp hm)

theorem DirtyClosed.clean_below (d : o.DirtyClosed) (hb : o.Below h x) (hi : o.get? h = some i)
    (hclean : i.dirty = false) (hj : o.get? x = some j) : j.dirty = false := by
  cases hd : j.dirty with
  | false => rfl
  | true =>
      rw [d.of_below hb hi hj hd] at hclean
      cases hclean

/-- The mark of an item may be taken away when its children are clean. -/
theorem DirtyClosed.clear (d : o.DirtyClosed) (hi : o.get? h = some i) (hj : j.dirty = false)
    (clean : ∀ {x k}, x ≠ h → o.get? x = some k → k.parent = some h → k.dirty = false) :
    (o.set h j).DirtyClosed := by
  intro x k q m hk hdirty hq hm
  rcases of_get?_set hi hk with ⟨-, rfl⟩ | ⟨hx, hk⟩
  · rw [hj] at hdirty
    cases hdirty
  · rcases of_get?_set hi hm with ⟨hqh, -⟩ | ⟨-, hm⟩
    · rw [clean hx hk (hqh ▸ hq)] at hdirty
      cases hdirty
    · exact d hk hdirty hq hm

/-- A clean item may remember its image. -/
theorem Coherent.remember (co : o.Coherent) (w : o.WellFormed) (a : o.Attached)
    (hi : o.get? h = some i) {t : SharedTree} (ht : o.plainImage h = .ok t.plain) (dirty : Bool) :
    (o.set h { i with dirty, cache := some t }).Coherent := by
  intro x j u hj hclean hcache
  have hs : SameTree o (o.set h { i with dirty, cache := some t }) := .set hi rfl
  rcases of_get?_set hi hj with ⟨rfl, rfl⟩ | ⟨-, hj⟩
  · rw [hs.plainImage w a hi, ht, Option.some.inj hcache]
  · rw [hs.plainImage w a hj]
    exact co hj hclean hcache

end Outline

end PackageOutline
