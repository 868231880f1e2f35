import PackageOutline.Proofs.Outline.Tended

/-! # Removals are all or nothing

Before an item is released, its relative path is taken, and a path is there only when the item has a
line up to the root (`line_of_relativePath`).  The line of the parent is not touched by releasing what
stands below, so the marking at the end finds the root: a removal is refused at once and changes
nothing, or it is accepted and complete (`WellFormed.remove_refused_or_done`).

What was released is of the past from then on (`Releases.past_of_gone`), and what is of the past stays
there (`Releases.past`), as long as no generation comes round. -/

namespace PackageOutline

namespace Outline

variable {o o₁ o' s s' : Outline} {h p x : Handle} {i j : Item} {n : Nat}

/-! ### Lines from paths -/

theorem line_of_endChain {origin : Handle} {below line : List Handle} (hi : o.get? h = some i)
    (hp : i.parent = none) (he : endChain origin below h = .ok line) : ∃ l, o.Line h l := by
  unfold endChain at he
  split at he
  · rename_i hroot
    subst hroot
    exact ⟨_, .root hi hp⟩
  · cases he

theorem line_of_climb {origin : Handle} {steps : Nat} {below line : List Handle}
    (hc : o.climb origin steps below h = .ok line) : ∃ l, o.Line h l := by
  induction steps generalizing h below with
  | zero =>
      unfold climb at hc
      obtain ⟨i, hitem, hc⟩ := bind_eq_ok.mp hc
      cases hp : i.parent with
      | none =>
          simp only [hp] at hc
          exact line_of_endChain (item_eq_ok_iff.mp hitem) hp hc
      | some p =>
          simp only [hp] at hc
          cases hc
  | succ steps ih =>
      unfold climb at hc
      obtain ⟨i, hitem, hc⟩ := bind_eq_ok.mp hc
      have hi := item_eq_ok_iff.mp hitem
      cases hp : i.parent with
      | none =>
          simp only [hp] at hc
          exact line_of_endChain hi hp hc
      | some p =>
          simp only [hp] at hc
          obtain ⟨l, hl⟩ := ih hc
          exact ⟨_, .step hi hp hl⟩

theorem line_of_relativePath {path : String} (hp : o.relativePath h = .ok path) :
    ∃ l, o.Line h l := by
  obtain ⟨line, hline, -⟩ := bind_eq_ok.mp hp
  exact line_of_climb hline

theorem line_of_detach (hd : o.detach h = .ok (p, o')) : ∃ l, o.Line p l := by
  obtain ⟨i, j, hi, hp, -⟩ := detach_eq_ok hd
  unfold detach at hd
  simp only [bind_eq_ok, item_eq_ok_iff] at hd
  obtain ⟨i', hi', hd⟩ := hd
  rw [hi] at hi'
  obtain rfl := Option.some.inj hi'
  simp only [hp, bind_eq_ok] at hd
  obtain ⟨path, hpath, -⟩ := hd
  obtain ⟨l, hl⟩ := line_of_relativePath hpath
  cases hl with
  | root hi' hnone =>
      rw [hi] at hi'
      rw [← Option.some.inj hi', hp] at hnone
      cases hnone
  | step hi' hq hl =>
      rw [hi] at hi'
      rw [← Option.some.inj hi', hp] at hq
      exact ⟨_, Option.some.inj hq ▸ hl⟩

/-! ### Removals -/

/-- A removal that was accepted: the item was taken out of the children of its parent, its family was
released, and the line of the parent was marked. -/
structure Removed (h : Handle) (o o' : Outline) : Prop where
  tree : o'.WellFormed
  document : o'.document = o.document
  live : ∃ i, o.get? h = some i
  gone : ∀ x ∈ o.family h, o'.get? x = none
  rest : ∀ x ∉ o.family h, (o'.get? x).map Item.stem = (o.get? x).map Item.stem
  /-- The releases one by one, and what happened before and after them to the other items. -/
  releases : ∃ o₁ o₂, Alike Item.stem o o₁ ∧ o₁.WellFormed ∧ Releases o₁ o₂ ∧
    Alike Item.frame o₂ o'

/-- What can be taken out of the children of its parent is removed: its family is released, item by
item, and the line of the parent is marked. -/
theorem WellFormed.remove_of_detach (w : o.WellFormed) (hd : o.detach h = .ok (p, o₁)) :
    ∃ gone o₂ o' l, Drains [h] gone o₁ o₂ ∧ gone.Perm (o.family h) ∧ Releases o₁ o₂ ∧
      o₂.WellFormed ∧ o.Line p l ∧ Marked l o₂ o' ∧
      exec (Edit.markDirty p) o₂ = (.ok (), o') ∧ exec (Edit.remove h) o = (.ok (), o') := by
  obtain ⟨l, hl⟩ := line_of_detach hd
  obtain ⟨gone, o₂, d, hperm, hrun⟩ := w.exec_remove_of_detach hd
  obtain ⟨i, j, hi, hp, hj, hmem, rfl⟩ := detach_eq_ok hd
  have hstem : AgreeOn Item.stem o (o.set p { j with children := j.children.erase h }) :=
    .set hj rfl
  have w₁ : (o.set p { j with children := j.children.erase h }).WellFormed := w.detach hj
  have q := d.releases w₁ (w.detached hi hp hj)
  have w₂ := q.tree w₁
  have hl₂ : o₂.Line p l := hl.congr_stem fun x hx => by
    have hxf : x ∉ gone := fun hxg => w.not_below_parent hj hmem
      ((w.below_of_mem_family hi (hperm.mem_iff.mp hxg)).trans (hl.mem_iff.mp hx))
    rw [(d.left w₁.free).2.2, if_neg hxf, hstem.get]
  obtain ⟨o', hmark, m⟩ := w₂.exec_markDirty hl₂
  exact ⟨gone, o₂, o', l, d, hperm, q, w₂, hl, m, hmark, hrun.trans hmark⟩

/-- A removal is refused and changes nothing, or it is accepted and complete. -/
theorem WellFormed.remove_refused_or_done {r : Except Violation Unit} (w : o.WellFormed)
    (hx : exec (Edit.remove h) o = (r, o')) :
    (∃ v, r = .error v) ∧ o' = o ∨ r = .ok () ∧ Removed h o o' := by
  cases hdetach : o.detach h with
  | error v =>
      obtain ⟨rfl, rfl⟩ := Prod.mk.inj (hx.symm.trans (exec_remove_of_error hdetach))
      exact Or.inl ⟨⟨v, rfl⟩, rfl⟩
  | ok a =>
      obtain ⟨p, o₁⟩ := a
      obtain ⟨gone, o₂, o₃, l, d, hperm, q, w₂, hl, m, hmark, hrun⟩ := w.remove_of_detach hdetach
      obtain ⟨rfl, rfl⟩ := Prod.mk.inj (hx.symm.trans hrun)
      obtain ⟨i, j, hi, hp, hj, hmem, rfl⟩ := detach_eq_ok hdetach
      have hstem : Alike Item.stem o (o.set p { j with children := j.children.erase h }) :=
        .set hj rfl
      obtain ⟨-, hdoc, hget⟩ := d.left (hstem.agree.freeExact w.free)
      have a := Edit.markDirty_alike p hmark
      refine Or.inr ⟨rfl, w₂.congr m.tree.frame, m.tree.document.trans hdoc, ⟨i, hi⟩, fun x hx => ?_,
        fun x hx => ?_, _, o₂, hstem, w.detach hj, q, a⟩
      · have hnone := a.agree.get x
        rw [hget, if_pos (hperm.mem_iff.mpr hx)] at hnone
        exact Option.map_eq_none_iff.mp hnone
      · rw [a.agree.stem.get, hget, if_neg (hperm.mem_iff.not.mpr hx), hstem.agree.get]

/-! ### What is of the past -/

theorem Releases.past (q : Releases s s') (w : s.WellFormed) (hn : n + 1 < 2 ^ 32)
    (bounded : ∀ {h i}, s.get? h = some i → h.generation.toNat ≤ n) (hx : s.Past x) : s'.Past x := by
  induction q with
  | none s => exact hx
  | @step s s₁ _ h i hi hrel w₁ _ ih =>
      have first : Releases s s₁ := .step hi hrel w₁ (.none s₁)
      exact ih w₁ (fun hk => bounded (first.get?_eq_some w hk))
        (past_of_release hi hrel (bounded hi) hn (Or.inr hx))

/-- What was released is of the past. -/
theorem Releases.past_of_gone (q : Releases s s') (w : s.WellFormed) (hn : n + 1 < 2 ^ 32)
    (bounded : ∀ {h i}, s.get? h = some i → h.generation.toNat ≤ n) (hj : s.get? x = some j)
    (hgone : s'.get? x = .none) : s'.Past x := by
  induction q with
  | none s =>
      rw [hj] at hgone
      cases hgone
  | @step s s₁ _ h i hi hrel w₁ q ih =>
      have first : Releases s s₁ := .step hi hrel w₁ (.none s₁)
      have bounded₁ : ∀ {h i}, s₁.get? h = some i → h.generation.toNat ≤ n :=
        fun hk => bounded (first.get?_eq_some w hk)
      by_cases hxh : x = h
      · exact q.past w₁ hn bounded₁ (past_of_release hi hrel (bounded hi) hn (Or.inl hxh))
      · obtain ⟨hget, -⟩ := w.free.released hi hrel
        exact ih w₁ bounded₁ (by rw [hget, if_neg hxh, hj]) hgone

end Outline

end PackageOutline
