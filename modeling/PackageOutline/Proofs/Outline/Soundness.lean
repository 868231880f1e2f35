import PackageOutline.Proofs.Outline.Accepted
import PackageOutline.Proofs.Outline.Marks
import PackageOutline.Proofs.Outline.Shape

/-! # Edits keep outlines sound

An outline is sound when its tree is in order, all items are attached, marks are closed upwards and
memory is coherent (`Outline.Sound`).  Every accepted edit of a sound outline leaves a sound outline.

The proofs have one shape.  An edit first changes the tree and then marks a line, and
`Sound.marked` asks that the items off that line stood still; `Sound.touch` is the case of an edit
that writes one item. -/

namespace PackageOutline

namespace Outline

variable {o o₁ o' : Outline} {h p : Handle} {i j : Item} {l : List Handle} {α : Type}

/-- What runs of edits keep. -/
structure Sound (o : Outline) : Prop where
  tree : o.WellFormed
  attached : o.Attached
  closed : o.DirtyClosed
  coherent : o.Coherent

theorem Sound.marked (s : o.Sound) (w₁ : o₁.WellFormed) (a₁ : o₁.Attached)
    (d₁ : o₁.DirtyClosed) (hl : o₁.Line h l) (m : Marked l o₁ o')
    (hk : ∀ {y i}, o₁.get? y = some i → y ∉ l → ∃ j, o.get? y = some j ∧ j.dirty = i.dirty ∧
      j.cache = i.cache ∧ ∀ z, o.Below y z → Keeps o o₁ z) : o'.Sound :=
  ⟨m.tree.wellFormed w₁, m.tree.attached a₁, m.dirtyClosed hl d₁,
    m.coherent s.tree w₁ a₁ s.coherent hk⟩

/-! ### Edits that write one item -/

/-- The outline stays sound when one item is written, other than in what it is made as, and then
marked. -/
theorem Sound.touch (s : o.Sound) (hi : o.get? h = some i) (hstem : j.stem = i.stem)
    (hdirty : j.dirty = i.dirty) (w₁ : (o.set h j).WellFormed) (a₁ : (o.set h j).Attached)
    (hm : exec (Edit.markDirty h) (o.set h j) = (.ok (), o')) : o'.Sound := by
  have ag : AgreeOn Item.stem o (o.set h j) := .set hi hstem
  obtain ⟨l, hl⟩ := s.tree.exists_line s.attached hi
  have hl₁ : (o.set h j).Line h l := ag.line hl
  have d₁ : (o.set h j).DirtyClosed := by
    refine s.closed.congr (.set hi ?_)
    rw [(Item.stem_eq_iff.mp hstem).2.2, hdirty]
  refine s.marked w₁ a₁ d₁ hl₁ (w₁.markDirty_eq_ok hl₁ hm) fun {y k} hk hy => ?_
  have off : ∀ {z}, o.Below y z → z ≠ h := by
    rintro z hz rfl
    exact hy (hl.mem_iff.mpr hz)
  rw [get?_set_of_ne hi _ (off .self)] at hk
  refine ⟨k, hk, rfl, rfl, fun z hz => ?_⟩
  obtain ⟨m, hm⟩ := hz.live hk
  obtain ⟨lz, hlz⟩ := s.tree.exists_line s.attached hm
  exact s.tree.keeps w₁ hlz (fun x _ => ag.get x) hm (by rw [get?_set_of_ne hi _ (off hz), hm]) rfl
    rfl rfl

theorem Sound.markDirty (s : o.Sound) (hi : o.get? h = some i)
    (hm : exec (Edit.markDirty h) o = (.ok (), o')) : o'.Sound := by
  obtain ⟨l, hl⟩ := s.tree.exists_line s.attached hi
  refine s.marked s.tree s.attached s.closed hl (s.tree.markDirty_eq_ok hl hm) fun {y k} hk hy => ?_
  refine ⟨k, hk, rfl, rfl, fun z hz => ?_⟩
  obtain ⟨m, hm⟩ := hz.live hk
  exact ⟨m, m, hm, hm, rfl, rfl, rfl, fun _ _ hc => hc⟩

theorem exec_setContents (hi : o.get? h = some i) (c : Bytes) :
    exec (Edit.setContents h c) o = if i.kind = .file then
      exec ((Edit.markDirty h).adapt .violation) (o.set h { i with contents := some c })
    else (.error (.error (.notAFile i.kind i.name)), o) := by
  unfold Edit.setContents
  have hread : exec ((Edit.read (·.item h)).adapt Failure.violation) o = (.ok i, o) := by
    rw [exec_adapt, Edit.exec_read, item_of_get? hi]
    rfl
  rw [exec_bind_of_ok hread]
  by_cases hk : i.kind = .file
  · simp only [Kind.holdsData, hk, beq_self_eq_true, ↓reduceIte]
    have hchange : exec (Edit.change (·.update h fun i => { i with contents := some c })) o =
        (.ok (), o.set h { i with contents := some c }) :=
      Edit.exec_change_eq_ok.mpr (update_of_get? hi _)
    rw [exec_adapt, exec_bind_of_ok hchange, exec_adapt, ← hk]
  · have hb : (i.kind == Kind.file) = false := by simp [hk]
    simp only [Kind.holdsData, hk, hb, ↓reduceIte]
    rfl

theorem Sound.setContents (s : o.Sound) (hi : o.get? h = some i) {c : Bytes}
    {r : Except Failure Unit} (hm : exec (Edit.setContents h c) o = (r, o')) : o'.Sound := by
  rw [exec_setContents hi] at hm
  split at hm
  · have ag : AgreeOn Item.frame o (o.set h { i with contents := some c }) := .set hi rfl
    have w₁ := s.tree.congr ag
    obtain ⟨l, hl⟩ := s.tree.exists_line s.attached hi
    obtain ⟨o₁, hrun, -⟩ := w₁.exec_markDirty (ag.stem.line hl)
    rw [exec_adapt, hrun] at hm
    obtain rfl := (Prod.mk.inj hm).2
    refine s.touch hi ?_ ?_ w₁ (s.attached.congr ag.links) hrun <;> rfl
  · obtain rfl := (Prod.mk.inj hm).2
    exact s

theorem Sound.move {start stop : Nat} (s : o.Sound)
    (hm : exec (Edit.move p start stop) o = (.ok (), o')) : o'.Sound := by
  obtain ⟨o₁, hmove, hmark⟩ := Edit.exec_move_eq_ok hm
  obtain ⟨j, c, hj, hc, hstop, rfl⟩ := moveChild_eq_ok hmove
  have hperm := perm_of_move hc hstop
  refine s.touch hj ?_ ?_ (s.tree.permute hj hperm) (s.attached.permute hj hperm) hmark <;> rfl

theorem Sound.reorder {order : List Handle} (s : o.Sound)
    (hm : exec (Edit.reorder p order) o = (.ok (), o')) : o'.Sound := by
  obtain ⟨o₁, harrange, hmark⟩ := Edit.exec_reorder_eq_ok hm
  obtain ⟨j, hj, horder, rfl⟩ := arrange_eq_ok harrange
  have hperm := (isReorder_iff (s.tree.nodup hj)).mp horder
  refine s.touch hj ?_ ?_ (s.tree.permute hj hperm) (s.attached.permute hj hperm) hmark <;> rfl

/-! ### New items -/

theorem WellFormed.create {kind : Kind} {name : String} (w : o.WellFormed)
    (hno : ∀ {x k}, o.get? x = some k → k.parent ≠ some h)
    (hc : o.create p kind name = .ok (h, o')) : o'.WellFormed := by
  obtain ⟨hplace, halloc⟩ := create_eq_ok hc
  obtain ⟨hvalid, hgroup, j, hj, hadmits⟩ := checkPlacement_eq_ok hplace
  obtain ⟨g, hfree⟩ := w.free.allocate halloc
  exact w.grow g hfree rfl rfl hj hadmits hvalid hgroup hno

theorem WellFormed.attach {index : Nat} (w : o.WellFormed) (ha : o.attach p index h = .ok o') :
    o'.WellFormed := by
  obtain ⟨i, j, hi, hp, hj, hmem, hindex, hsib, rfl⟩ := attach_eq_ok ha
  have hperm : (j.children.insertIdx index h).Perm (h :: j.children) :=
    List.perm_insertIdx _ _ hindex
  obtain ⟨j₀, hj₀, hdiff⟩ := checkSiblings_eq_ok hsib
  rw [hj] at hj₀
  obtain rfl := Option.some.inj hj₀
  refine w.setChildren hj ?_ ?_ ?_
  · exact hperm.nodup_iff.mpr (List.nodup_cons.mpr ⟨hmem, w.nodup hj⟩)
  · intro c hc
    rcases List.mem_cons.mp (hperm.mem_iff.mp hc) with rfl | hc
    · exact ⟨i, hi, hp⟩
    · exact w.child hj hc
  · intro c d k m hc hd hk hm hkm
    rcases List.mem_cons.mp (hperm.mem_iff.mp hc) with rfl | hc'
    · rcases List.mem_cons.mp (hperm.mem_iff.mp hd) with rfl | hd'
      · rfl
      · rw [hi] at hk
        rw [← Option.some.inj hk] at hkm
        exact absurd hkm.symm (hdiff hd' (by simp) hm)
    · rcases List.mem_cons.mp (hperm.mem_iff.mp hd) with rfl | hd'
      · rw [hi] at hm
        rw [← Option.some.inj hm] at hkm
        exact absurd hkm (hdiff hc' (by simp) hk)
      · exact w.siblings hj hc' hd' hk hm hkm

/-- `Added h q i j cs o o'`: the new item `h`, which is `i`, stands among the children of `q`, which
was `j` and now has the children `cs`. -/
structure Added (h q : Handle) (i j : Item) (cs : List Handle) (o o' : Outline) : Prop where
  fresh : o.get? h = none
  above : o.get? q = some j
  named : i.parent = some q
  perm : cs.Perm (h :: j.children)
  document : o'.document = o.document
  get : ∀ x, o'.get? x =
    if x = h then some i else if x = q then some { j with children := cs } else o.get? x

namespace Added

variable {q x : Handle} {k : Item} {cs : List Handle}

theorem ne (n : Added h q i j cs o o') (hk : o.get? x = some k) : x ≠ h := by
  rintro rfl
  rw [n.fresh] at hk
  cases hk

theorem self (n : Added h q i j cs o o') : o'.get? h = some i := by
  rw [n.get, if_pos rfl]

theorem parent (n : Added h q i j cs o o') : o'.get? q = some { j with children := cs } := by
  rw [n.get, if_neg (n.ne n.above), if_pos rfl]

theorem elsewhere (n : Added h q i j cs o o') (hk : o.get? x = some k) (hx : x ≠ q) :
    o'.get? x = some k := by
  rw [n.get, if_neg (n.ne hk), if_neg hx, hk]

theorem old (n : Added h q i j cs o o') (hk : o'.get? x = some k) (hx : x ≠ h) :
    ∃ k₀, o.get? x = some k₀ ∧ k₀.parent = k.parent ∧ k₀.dirty = k.dirty ∧ k₀.cache = k.cache := by
  rw [n.get, if_neg hx] at hk
  by_cases hxq : x = q
  · rw [if_pos hxq] at hk
    obtain rfl := Option.some.inj hk
    exact ⟨j, hxq ▸ n.above, rfl, rfl, rfl⟩
  · rw [if_neg hxq] at hk
    exact ⟨k, hk, rfl, rfl, rfl⟩

theorem now (n : Added h q i j cs o o') (hk : o.get? x = some k) :
    ∃ k', o'.get? x = some k' ∧ k'.stem = k.stem := by
  by_cases hxq : x = q
  · subst hxq
    rw [n.above] at hk
    obtain rfl := Option.some.inj hk
    exact ⟨_, n.parent, rfl⟩
  · exact ⟨k, n.elsewhere hk hxq, rfl⟩

theorem attached (n : Added h q i j cs o o') (a : o.Attached) : o'.Attached := by
  intro x k hk hx
  by_cases hxh : x = h
  · subst hxh
    rw [n.self] at hk
    exact ⟨q, _, Option.some.inj hk ▸ n.named, n.parent, n.perm.mem_iff.mpr List.mem_cons_self⟩
  · obtain ⟨k₀, hk₀, hkp, -⟩ := n.old hk hxh
    obtain ⟨r, m, hr, hm, hmem⟩ := a hk₀ hx
    by_cases hrq : r = q
    · rw [hrq, n.above] at hm
      obtain rfl := Option.some.inj hm
      exact ⟨q, _, hrq ▸ hkp ▸ hr, n.parent, n.perm.mem_iff.mpr (List.mem_cons_of_mem _ hmem)⟩
    · exact ⟨r, m, hkp ▸ hr, n.elsewhere hm hrq, hmem⟩

theorem dirtyClosed (n : Added h q i j cs o o') (w : o.WellFormed) (a : o.Attached)
    (d : o.DirtyClosed) (hi : i.dirty = false) : o'.DirtyClosed := by
  intro x k r m hk hdirty hr hm
  have hx : x ≠ h := by
    rintro rfl
    rw [n.self] at hk
    rw [← Option.some.inj hk, hi] at hdirty
    cases hdirty
  obtain ⟨k₀, hk₀, hkp, hkd, -⟩ := n.old hk hx
  obtain ⟨r₀, hr₀, -⟩ := w.parent_of a hk₀ (hkp.trans hr)
  obtain ⟨m₀, hm₀, -, hmd, -⟩ := n.old hm (n.ne hr₀)
  rw [← hmd]
  exact d hk₀ (hkd.trans hdirty) (hkp.trans hr) hm₀

theorem below (n : Added h q i j cs o o') {y z : Handle} (hb : o.Below y z) : o'.Below y z := by
  refine hb.congr fun hk => ?_
  obtain ⟨k', hk', hks⟩ := n.now hk
  exact ⟨k', hk', (Item.stem_eq_iff.mp hks).2.2⟩

end Added

/-- What making an item and attaching it comes to. -/
theorem WellFormed.create_attach {o₂ : Outline} {kind : Kind} {name : String} {q : Handle}
    {index : Nat} (w : o.WellFormed) (a : o.Attached) (hc : o.create p kind name = .ok (h, o₁))
    (ha : o₁.attach q index h = .ok o₂) :
    ∃ j, q = p ∧ Added h p { kind, name, parent := some p } j (j.children.insertIdx index h) o o₂ ∧
      o₂.WellFormed := by
  obtain ⟨hplace, halloc⟩ := create_eq_ok hc
  obtain ⟨-, -, j, hj, -⟩ := checkPlacement_eq_ok hplace
  obtain ⟨g, -⟩ := w.free.allocate halloc
  have hnew : ∀ {x k}, o.get? x = some k → k.parent ≠ some h := by
    intro x k hk hp
    obtain ⟨m, hm, -⟩ := w.parent_of a hk hp
    exact g.ne hm rfl
  have w₂ := (w.create hnew hc).attach ha
  obtain ⟨i, j', hi, hp, hj', -, hindex, -, rfl⟩ := attach_eq_ok ha
  rw [g.self] at hi
  obtain rfl := Option.some.inj hi
  obtain rfl : q = p := (Option.some.inj hp).symm
  obtain rfl : j' = j := by
    rw [g.elsewhere hj] at hj'
    exact (Option.some.inj hj').symm
  refine ⟨j', rfl, ⟨g.fresh, hj, rfl, List.perm_insertIdx _ _ hindex, g.document, fun x => ?_⟩, w₂⟩
  rw [get?_set hj', g.get]
  by_cases hx : x = q
  · rw [if_pos hx, if_neg (hx ▸ g.ne hj), if_pos hx]
  · rw [if_neg hx, if_neg hx]

/-- Making an item, attaching it and marking it keeps an outline sound. -/
theorem Sound.place {o₂ : Outline} {kind : Kind} {name : String} {q : Handle} {index : Nat}
    (s : o.Sound) (hc : o.create p kind name = .ok (h, o₁)) (ha : o₁.attach q index h = .ok o₂)
    (hm : exec (Edit.markDirty h) o₂ = (.ok (), o')) : o'.Sound := by
  obtain ⟨j, rfl, n, w₂⟩ := s.tree.create_attach s.attached hc ha
  have a₂ := n.attached s.attached
  have d₂ := n.dirtyClosed s.tree s.attached s.closed rfl
  obtain ⟨l, hl⟩ := w₂.exists_line a₂ n.self
  have hql : q ∈ l := hl.parent_mem hl.self_mem n.self rfl
  refine s.marked w₂ a₂ d₂ hl (w₂.markDirty_eq_ok hl hm) fun {y k} hk hy => ?_
  have hyh : y ≠ h := by
    rintro rfl
    exact hy hl.self_mem
  obtain ⟨k₀, hk₀, -, hkd, hkc⟩ := n.old hk hyh
  refine ⟨k₀, hk₀, hkd, hkc, fun z hz => ?_⟩
  obtain ⟨m, hm⟩ := hz.live hk₀
  have hzq : z ≠ q := by
    rintro rfl
    exact hy (hl.mem_iff.mpr ((n.below hz).trans (hl.mem_iff.mp hql)))
  obtain ⟨lz, hlz⟩ := s.tree.exists_line s.attached hm
  refine s.tree.keeps w₂ hlz (fun x hx => ?_) hm (n.elsewhere hm hzq) rfl rfl n.document
  obtain ⟨m, hm⟩ := hlz.live x hx
  obtain ⟨m', hm', hms⟩ := n.now hm
  rw [hm, hm', Option.map_some, Option.map_some, hms]

theorem Sound.add {kind : Kind} {name : String} (s : o.Sound)
    (hm : exec (Edit.add p kind name) o = (.ok h, o')) : o'.Sound := by
  obtain ⟨o₁, index, o₂, hcreate, hattach, hmark⟩ := Edit.exec_add_eq_ok hm
  exact s.place hcreate hattach hmark

theorem Sound.insertNew {kind : Kind} {name : String} {q : Handle} {index : Nat} (s : o.Sound)
    (hm : exec (Edit.create p kind name >>= Edit.insert q index) o = (.ok (), o')) : o'.Sound := by
  obtain ⟨h, o₁, o₂, hcreate, hattach, hmark⟩ := Edit.exec_insertNew_eq_ok hm
  exact s.place hcreate hattach hmark

end Outline

end PackageOutline
