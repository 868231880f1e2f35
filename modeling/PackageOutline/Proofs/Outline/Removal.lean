import PackageOutline.Proofs.Outline.Soundness

/-! # Removing items

Removing an item takes it out of the children of its parent and releases its family, item by item.

* `Outline.Drains`: the releases one after another.  From items that are there, with all that stands
  below them, they come to an end (`WellFormed.exists_drains`).
* `WellFormed.exec_remove_of_detach`: an item that can be taken out is released with its family.
* `Outline.Cut`: an outline without some items; it is in order (`Cut.wellFormed`).
* `WellFormed.exec_remove`: what is left is the outline without the family.
* `Sound.remove`: it is sound. -/

namespace PackageOutline

namespace Outline

variable {o o₁ o' s s' : Outline} {h p x : Handle} {i j : Item} {pending gone l : List Handle}

/-! ### Releasing one after another -/

/-- `Drains pending gone s s'`: releasing the pending items, the children of each before those that
are still pending, comes to an end with `s'`.  The items released are `gone`, in this order, and each
is there when its turn comes. -/
inductive Drains : (pending gone : List Handle) → (s s' : Outline) → Prop
  | done (s : Outline) : Drains [] [] s s
  | next {h : Handle} {i : Item} {pending gone : List Handle} {s s₁ s' : Outline} :
      s.get? h = some i → s.release h = .ok (i, s₁) →
      Drains (i.children.reverse ++ pending) gone s₁ s' → Drains (h :: pending) (h :: gone) s s'

/-- The program ends as the releases do, whatever number of steps beyond theirs is allowed. -/
theorem Drains.exec (d : Drains pending gone s s') {steps : Nat} (hs : gone.length ≤ steps) :
    exec (Edit.releasePending steps pending) s = (.ok (), s') := by
  induction d generalizing steps with
  | done s => cases steps <;> rfl
  | next hi hr _ ih =>
      rw [List.length_cons] at hs
      obtain ⟨steps, rfl⟩ : ∃ n, steps = n + 1 := ⟨steps - 1, by omega⟩
      unfold Edit.releasePending
      rw [exec_bind_of_ok (Edit.exec_changeWith_eq_ok.mpr hr)]
      exact ih (by omega)

theorem Drains.left (d : Drains pending gone s s') (e : s.FreeExact) :
    s'.FreeExact ∧ s'.document = s.document ∧
      ∀ x, s'.get? x = if x ∈ gone then none else s.get? x := by
  induction d with
  | done s => exact ⟨e, rfl, fun x => by simp⟩
  | @next h i pending gone s s₁ s' hi hr _ ih =>
      obtain ⟨hget, hdoc, -, e₁⟩ := e.released hi hr
      obtain ⟨e', hdoc', hget'⟩ := ih e₁
      refine ⟨e', hdoc'.trans hdoc, fun x => ?_⟩
      rw [hget', hget]
      by_cases hx : x = h
      · simp [hx]
      · simp [hx]

/-- Pending items that still look as in `o` are released with all that stands below them in `o`. -/
theorem WellFormed.exists_drains (w : o.WellFormed) {n : Nat} (pending : List Handle)
    (live : ∀ q ∈ pending, ∃ i, o.get? q = some i) (hnd : (pending.flatMap o.family).Nodup)
    (hlen : (pending.flatMap o.family).length = n) (e : s.FreeExact)
    (hsame : ∀ x ∈ pending.flatMap o.family, s.get? x = o.get? x) :
    ∃ gone s', Drains pending gone s s' ∧ gone.Perm (pending.flatMap o.family) := by
  induction n generalizing pending s with
  | zero =>
      cases pending with
      | nil => exact ⟨[], s, .done s, .refl _⟩
      | cons h pending =>
          obtain ⟨i, hi⟩ := live h List.mem_cons_self
          rw [List.flatMap_cons, w.family_eq hi] at hlen
          simp at hlen
  | succ n ih =>
      cases pending with
      | nil => exact ⟨[], s, .done s, .refl _⟩
      | cons h pending =>
          obtain ⟨i, hi⟩ := live h List.mem_cons_self
          have hfam : (h :: pending).flatMap o.family =
              h :: (i.children.flatMap o.family ++ pending.flatMap o.family) := by
            rw [List.flatMap_cons, w.family_eq hi, List.cons_append]
          have hperm : ((i.children.reverse ++ pending).flatMap o.family).Perm
              (i.children.flatMap o.family ++ pending.flatMap o.family) := by
            rw [List.flatMap_append]
            exact (List.Perm.flatMap_right _ (List.reverse_perm _)).append_right _
          rw [hfam] at hnd hlen hsame
          obtain ⟨hnotin, hnd⟩ := List.nodup_cons.mp hnd
          have his : s.get? h = some i := by rw [hsame h List.mem_cons_self, hi]
          obtain ⟨s₁, hrel, hget, -, -, e₁⟩ := e.release his
          have hlive : ∀ q ∈ i.children.reverse ++ pending, ∃ i, o.get? q = some i := by
            intro q hq
            rcases List.mem_append.mp hq with hq | hq
            · obtain ⟨k, hk, -⟩ := w.child hi (List.mem_reverse.mp hq)
              exact ⟨k, hk⟩
            · exact live q (List.mem_cons_of_mem _ hq)
          have hsame₁ : ∀ x ∈ (i.children.reverse ++ pending).flatMap o.family,
              s₁.get? x = o.get? x := by
            intro x hx
            have hx' := hperm.mem_iff.mp hx
            have hxh : x ≠ h := by
              rintro rfl
              exact hnotin hx'
            rw [hget, if_neg hxh, hsame x (List.mem_cons_of_mem _ hx')]
          obtain ⟨gone, s', d, hgone⟩ := ih _ hlive (hperm.nodup_iff.mpr hnd)
            (by rw [hperm.length_eq]; simpa using hlen) e₁ hsame₁
          exact ⟨h :: gone, s', .next his hrel d, by rw [hfam]; exact (hgone.trans hperm).cons h⟩

/-- An item that was taken out of the children of its parent is released with its family. -/
theorem WellFormed.drains_family (w : o.WellFormed) (hi : o.get? h = some i)
    (hj : o.get? p = some j) (hpf : p ∉ o.family h) :
    ∃ gone s', Drains [h] gone (o.set p { j with children := j.children.erase h }) s' ∧
      gone.Perm (o.family h) ∧ gone.length ≤ o.slots.size := by
  have hag : AgreeOn Item.stem o (o.set p { j with children := j.children.erase h }) :=
    .set hj rfl
  have hfamily : [h].flatMap o.family = o.family h := by simp
  obtain ⟨gone, s', d, hperm⟩ := w.exists_drains [h] (by simpa using ⟨i, hi⟩)
    (by rw [hfamily]; exact w.nodup_family hi) rfl (hag.freeExact w.free)
    (by
      rw [hfamily]
      exact fun x hx => get?_set_of_ne hj _ fun hxp => hpf (hxp ▸ hx))
  rw [hfamily] at hperm
  refine ⟨gone, s', d, hperm, ?_⟩
  rw [hperm.length_eq]
  exact Nat.le_trans (w.length_family_le hi) (itemCount_le_size o)

theorem WellFormed.detach (w : o.WellFormed) (hj : o.get? p = some j) :
    (o.set p { j with children := j.children.erase h }).WellFormed := by
  refine w.setChildren hj ((w.nodup hj).erase h) (fun c hc => ?_) fun hc hd => ?_
  · exact w.child hj (List.mem_of_mem_erase hc)
  · exact w.siblings hj (List.mem_of_mem_erase hc) (List.mem_of_mem_erase hd)

theorem exec_remove_of_error {v : Violation} (hd : o.detach h = .error v) :
    exec (Edit.remove h) o = (.error v, o) := by
  refine exec_bind_of_error ?_
  unfold Edit.changeWith
  rw [exec_mk]
  simp only [hd]

/-- What can be taken out is released with its family; what is left is to mark the parent. -/
theorem WellFormed.exec_remove_of_detach (w : o.WellFormed) (hd : o.detach h = .ok (p, o₁)) :
    ∃ gone o₂, Drains [h] gone o₁ o₂ ∧ gone.Perm (o.family h) ∧
      exec (Edit.remove h) o = exec (Edit.markDirty p) o₂ := by
  obtain ⟨i, j, hi, hp, hj, hmem, rfl⟩ := detach_eq_ok hd
  have hpf : p ∉ o.family h := fun hpf => w.not_below_parent hj hmem (w.below_of_mem_family hi hpf)
  obtain ⟨gone, o₂, d, hperm, hlen⟩ := w.drains_family hi hj hpf
  refine ⟨gone, o₂, d, hperm, ?_⟩
  unfold Edit.remove
  rw [exec_bind_of_ok (Edit.exec_changeWith_eq_ok.mpr hd), exec_bind_of_ok (exec_get _), size_set,
    exec_bind_of_ok (d.exec hlen)]

/-! ### What is left -/

/-- An outline without some items: they are gone, also from the lists of children. -/
structure Cut (gone : List Handle) (o o' : Outline) : Prop where
  free : o'.FreeExact
  document : o'.document = o.document
  get : ∀ x, o'.get? x = if x ∈ gone then none else
    (o.get? x).map fun i => { i with children := i.children.filter (· ∉ gone) }

namespace Cut

theorem now (c : Cut gone o o') (hx : x ∉ gone) (hi : o.get? x = some i) :
    o'.get? x = some { i with children := i.children.filter (· ∉ gone) } := by
  rw [c.get, if_neg hx, hi, Option.map_some]

theorem old (c : Cut gone o o') (hi : o'.get? x = some i) : x ∉ gone ∧
    ∃ i₀, o.get? x = some i₀ ∧ i = { i₀ with children := i₀.children.filter (· ∉ gone) } := by
  rw [c.get] at hi
  split at hi
  · cases hi
  · obtain ⟨i₀, hi₀, hj⟩ := Option.map_eq_some_iff.mp hi
    exact ⟨‹_›, i₀, hi₀, hj.symm⟩

theorem stem (c : Cut gone o o') (hx : x ∉ gone) :
    (o'.get? x).map Item.stem = (o.get? x).map Item.stem := by
  rw [c.get, if_neg hx, Option.map_map]
  rfl

theorem wellFormed (c : Cut gone o o') (w : o.WellFormed) (hr : Outline.root ∉ gone) :
    o'.WellFormed := by
  constructor
  case root =>
    obtain ⟨r, hroot, hk, hp⟩ := w.root
    exact ⟨_, c.now hr hroot, hk, hp⟩
  case free => exact c.free
  case child =>
    intro p j d hj hd
    obtain ⟨-, j₀, hj₀, rfl⟩ := c.old hj
    obtain ⟨hd, hgone⟩ := List.mem_filter.mp hd
    obtain ⟨k, hk, hp⟩ := w.child hj₀ hd
    exact ⟨_, c.now (of_decide_eq_true hgone) hk, hp⟩
  case placed =>
    intro x k p j hk hp hj
    obtain ⟨-, k₀, hk₀, rfl⟩ := c.old hk
    obtain ⟨-, j₀, hj₀, rfl⟩ := c.old hj
    show j₀.kind.admits k₀.kind = true
    exact w.placed hk₀ hp hj₀
  case nodup =>
    intro p j hj
    obtain ⟨-, j₀, hj₀, rfl⟩ := c.old hj
    exact (w.nodup hj₀).filter _
  case siblings =>
    intro p j d e k m hj hd he hk hm hkm
    obtain ⟨-, j₀, hj₀, rfl⟩ := c.old hj
    obtain ⟨-, k₀, hk₀, rfl⟩ := c.old hk
    obtain ⟨-, m₀, hm₀, rfl⟩ := c.old hm
    exact w.siblings hj₀ (List.mem_of_mem_filter hd) (List.mem_of_mem_filter he) hk₀ hm₀ hkm
  case orphan =>
    intro x k hk hp
    obtain ⟨-, k₀, hk₀, rfl⟩ := c.old hk
    exact w.orphan hk₀ hp
  case valid =>
    intro x k hk hx
    obtain ⟨-, k₀, hk₀, rfl⟩ := c.old hk
    show Identifier.isValid k₀.name = true
    exact w.valid hk₀ hx
  case group =>
    intro x k hk hkind
    obtain ⟨-, k₀, hk₀, rfl⟩ := c.old hk
    show k₀.parent = some Outline.root ∧ Identifier.isGroup k₀.name = true
    exact w.group hk₀ hkind
  case ranked =>
    obtain ⟨rank, hrank⟩ := w.ranked
    refine ⟨rank, fun {x k p j} hk hp hj => ?_⟩
    obtain ⟨-, k₀, hk₀, rfl⟩ := c.old hk
    obtain ⟨-, j₀, hj₀, rfl⟩ := c.old hj
    exact hrank hk₀ hp hj₀

theorem attached (c : Cut gone o o') (a : o.Attached)
    (down : ∀ {x k p}, o.get? x = some k → k.parent = some p → p ∈ gone → x ∈ gone) :
    o'.Attached := by
  intro x k hk hx
  obtain ⟨hgone, k₀, hk₀, rfl⟩ := c.old hk
  obtain ⟨p, j, hp, hj, hmem⟩ := a hk₀ hx
  exact ⟨p, _, hp, c.now (fun hpg => hgone (down hk₀ hp hpg)) hj,
    List.mem_filter.mpr ⟨hmem, decide_eq_true hgone⟩⟩

theorem dirtyClosed (c : Cut gone o o') (d : o.DirtyClosed) : o'.DirtyClosed := by
  intro x k p j hk hdirty hp hj
  obtain ⟨-, k₀, hk₀, rfl⟩ := c.old hk
  obtain ⟨-, j₀, hj₀, rfl⟩ := c.old hj
  show j₀.dirty = true
  exact d hk₀ hdirty hp hj₀

end Cut

/-! ### Families that go -/

theorem WellFormed.mem_family_of_parent (w : o.WellFormed) (a : o.Attached)
    (hi : o.get? h = some i) {k : Item} (hk : o.get? x = some k) (hp : k.parent = some p)
    (hpf : p ∈ o.family h) : x ∈ o.family h :=
  (w.mem_family_iff a hi).mpr (.step hk hp ((w.mem_family_iff a hi).mp hpf))

theorem WellFormed.root_not_mem_family (w : o.WellFormed) (hi : o.get? h = some i)
    (hp : i.parent = some p) : Outline.root ∉ o.family h := by
  intro hmem
  obtain ⟨r, hr, -, hnone⟩ := w.root
  rw [w.eq_root_of_below (w.below_of_mem_family hi hmem), hr] at hi
  rw [← Option.some.inj hi, hnone] at hp
  cases hp

theorem WellFormed.eq_parent_of_child_mem_family (w : o.WellFormed) (a : o.Attached)
    (hi : o.get? h = some i) (hp : i.parent = some p) {c : Handle} (hj : o.get? x = some j)
    (hx : x ∉ o.family h) (hc : c ∈ j.children) (hcf : c ∈ o.family h) : c = h ∧ x = p := by
  obtain ⟨k, hk, hkx⟩ := w.child hj hc
  cases (w.mem_family_iff a hi).mp hcf with
  | self =>
      rw [hi] at hk
      rw [← Option.some.inj hk, hp] at hkx
      exact ⟨rfl, (Option.some.inj hkx).symm⟩
  | step hk' hq hb =>
      rw [hk] at hk'
      rw [← Option.some.inj hk', hkx] at hq
      exact absurd ((w.mem_family_iff a hi).mpr (Option.some.inj hq ▸ hb)) hx

/-- Taking an item out of the children of its parent and releasing its family leaves the outline
without the family. -/
theorem WellFormed.cut_of_release (w : o.WellFormed) (a : o.Attached) (hi : o.get? h = some i)
    (hp : i.parent = some p) (hj : o.get? p = some j) (hpf : p ∉ o.family h)
    (hfree : o'.FreeExact) (hdoc : o'.document = o.document)
    (hget : ∀ x, o'.get? x = if x ∈ o.family h then none else
      (o.set p { j with children := j.children.erase h }).get? x) :
    Cut (o.family h) o o' := by
  refine ⟨hfree, hdoc, fun x => ?_⟩
  rw [hget, get?_set hj]
  by_cases hx : x ∈ o.family h
  · rw [if_pos hx, if_pos hx]
  rw [if_neg hx, if_neg hx]
  by_cases hxp : x = p
  · subst hxp
    rw [if_pos rfl, hj, Option.map_some, (w.nodup hj).erase_eq_filter]
    congr 2
    refine List.filter_congr fun c hc => ?_
    by_cases hch : c = h
    · simp [hch, w.self_mem_family hi]
    · have hcf : c ∉ o.family h := fun hcf =>
        hch (w.eq_parent_of_child_mem_family a hi hp hj hx hc hcf).1
      simp [hch, hcf]
  · rw [if_neg hxp]
    cases hk : o.get? x with
    | none => rfl
    | some k =>
        have hall : k.children.filter (· ∉ o.family h) = k.children :=
          List.filter_eq_self.mpr fun c hc => decide_eq_true fun hcf =>
            hxp (w.eq_parent_of_child_mem_family a hi hp hk hx hc hcf).2
        rw [Option.map_some, hall]

/-! ### Removing an item -/

theorem WellFormed.detach_eq (w : o.WellFormed) (a : o.Attached) (hi : o.get? h = some i)
    (hp : i.parent = some p) (hj : o.get? p = some j) :
    o.detach h = .ok (p, o.set p { j with children := j.children.erase h }) := by
  obtain ⟨l, hl⟩ := w.exists_line a hi
  obtain ⟨path, hpath⟩ := w.relativePath_isOk hl
  obtain ⟨j', hj', hmem⟩ := w.parent_of a hi hp
  rw [hj] at hj'
  obtain rfl := Option.some.inj hj'
  unfold Outline.detach
  simp only [item_of_get? hi, hp, hpath, item_of_get? hj, List.contains_iff_mem.mpr hmem, bind,
    Except.bind, ↓reduceIte]
  rfl

/-- Removing an attached item marks the parent in the outline without the family of the item. -/
theorem WellFormed.exec_remove (w : o.WellFormed) (a : o.Attached) (hi : o.get? h = some i)
    (hp : i.parent = some p) : ∃ o₁, Cut (o.family h) o o₁ ∧
      exec (Edit.remove h) o = exec (Edit.markDirty p) o₁ := by
  obtain ⟨j, hj, hmem⟩ := w.parent_of a hi hp
  have hpf : p ∉ o.family h := fun hpf => w.not_below_parent hj hmem (w.below_of_mem_family hi hpf)
  obtain ⟨gone, o₁, d, hperm, hrun⟩ := w.exec_remove_of_detach (w.detach_eq a hi hp hj)
  obtain ⟨hfree, hdoc, hget⟩ := d.left (w.detach hj).free
  simp only [hperm.mem_iff] at hget
  exact ⟨o₁, w.cut_of_release a hi hp hj hpf hfree hdoc hget, hrun⟩

theorem remove_eq_ok (hm : exec (Edit.remove h) o = (.ok (), o')) :
    ∃ i p, o.get? h = some i ∧ i.parent = some p := by
  obtain ⟨p, o₁, o₂, hdetach, -⟩ := Edit.exec_remove_eq_ok hm
  obtain ⟨i, j, hi, hp, -⟩ := detach_eq_ok hdetach
  exact ⟨i, p, hi, hp⟩

theorem Cut.tree (c : Cut (o.family h) o o₁) (w : o.WellFormed) (a : o.Attached)
    (hi : o.get? h = some i) (hp : i.parent = some p) (hl : o.Line p l) :
    o₁.WellFormed ∧ o₁.Attached ∧ o₁.Line p l := by
  obtain ⟨j, hj, hmem⟩ := w.parent_of a hi hp
  refine ⟨c.wellFormed w (w.root_not_mem_family hi hp), c.attached a (w.mem_family_of_parent a hi),
    hl.congr_stem fun x hx => c.stem fun hxf => ?_⟩
  exact w.not_below_parent hj hmem ((w.below_of_mem_family hi hxf).trans (hl.mem_iff.mp hx))

theorem Sound.remove (s : o.Sound) (hm : exec (Edit.remove h) o = (.ok (), o')) : o'.Sound := by
  obtain ⟨i, p, hi, hp⟩ := remove_eq_ok hm
  have w := s.tree
  have gone : ∀ {x}, x ∈ o.family h ↔ o.Below h x := w.mem_family_iff s.attached hi
  obtain ⟨j, hj, -⟩ := w.parent_of s.attached hi hp
  obtain ⟨l, hl⟩ := w.exists_line s.attached hj
  obtain ⟨o₁, c, hrun⟩ := w.exec_remove s.attached hi hp
  obtain ⟨w₁, a₁, hl₁⟩ := c.tree w s.attached hi hp hl
  rw [hrun] at hm
  refine s.marked w₁ a₁ (c.dirtyClosed s.closed) hl₁ (w₁.markDirty_eq_ok hl₁ hm) fun {y k} hk hy => ?_
  obtain ⟨hyf, k₀, hk₀, rfl⟩ := c.old hk
  refine ⟨k₀, hk₀, rfl, rfl, fun z hz => ?_⟩
  obtain ⟨n, hn⟩ := hz.live hk₀
  obtain ⟨lz, hlz⟩ := w.exists_line s.attached hn
  have hyp : ¬ o.Below y p := fun hb => hy (hl.mem_iff.mpr hb)
  have hzf : z ∉ o.family h := by
    intro hzf
    rcases hz.linear (gone.mp hzf) with hyh | hhy
    · cases hyh with
      | self => exact hyf (w.self_mem_family hi)
      | step hi' hq hb =>
          rw [hi] at hi'
          rw [← Option.some.inj hi', hp] at hq
          exact hyp (Option.some.inj hq ▸ hb)
    · exact hyf (gone.mpr hhy)
  have hchildren : n.children.filter (· ∉ o.family h) = n.children :=
    List.filter_eq_self.mpr fun d hd => decide_eq_true fun hdf =>
      hyp ((w.eq_parent_of_child_mem_family s.attached hi hp hn hzf hd hdf).2 ▸ hz)
  refine w.keeps w₁ hlz (fun x hx => c.stem fun hxf => ?_) hn (c.now hzf hn) hchildren rfl c.document
  exact hzf (gone.mpr ((gone.mp hxf).trans (hlz.mem_iff.mp hx)))

end Outline

end PackageOutline
