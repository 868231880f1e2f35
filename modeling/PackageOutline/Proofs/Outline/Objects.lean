import PackageOutline.Proofs.Outline.Touched
import PackageOutline.Proofs.Tree.Parts

/-! # Objects in memory

What an item remembers is an object that others keep alive or that is gone.  While callers hold some
trees (`held`), a workspace is *intact* (`Workspace.Intact`) when labels are identities of all objects
that are held or remembered by clean items, and when the tree of a clean item that is alive consists of
the very objects that the folders and files in it remember (`Outline.Reuses`).

* `Intact.mono`: callers may let trees go.
* `Intact.edit`: so may edits, since all that is above a change is dirty.
* `Intact.remember`: an item may remember another object, unless the one that it remembers is alive. -/

namespace PackageOutline

open PackageOutline.Tree (Part Alive Identified)

namespace Outline

variable {o o' : Outline} {h d c x : Handle} {i j k : Item} {t D : SharedTree}
  {held held' : List SharedTree} {gone l : List Handle}

/-- What a clean item remembers. -/
def Remembers (o : Outline) (x : Handle) (t : SharedTree) : Prop :=
  ∃ i, o.get? x = some i ∧ i.dirty = false ∧ i.cache = some t

/-- The trees that are held or remembered by clean items. -/
def Known (o : Outline) (held : List SharedTree) (t : SharedTree) : Prop :=
  t ∈ held ∨ ∃ x, o.Remembers x t

/-- What clean items remember of objects that are alive, they remember afterwards. -/
def Lasts (held : List SharedTree) (o o' : Outline) : Prop :=
  ∀ ⦃x t⦄, o.Remembers x t → Alive held t → o'.Remembers x t

/-- `Within d x`: the item `x` stands below `d`, and all items between are transparent. -/
inductive Within (o : Outline) : Handle → Handle → Prop
  | child {d c : Handle} {i : Item} : o.get? d = some i → c ∈ i.children → Within o d c
  | through {d c x : Handle} {i k : Item} : o.get? d = some i → c ∈ i.children →
      o.get? c = some k → k.kind.isTransparent = true → Within o c x → Within o d x

/-- A tree has the objects that the folders and files within an item remember, under their names. -/
def Reuses (o : Outline) (d : Handle) (D : SharedTree) : Prop :=
  ∀ ⦃x j⦄, o.Within d x → o.get? x = some j → j.kind.namesPath = true →
    ∃ t, j.cache = some t ∧ (j.name, t) ∈ D.entries

theorem Lasts.refl (held : List SharedTree) (o : Outline) : Lasts held o o := fun _ _ hr _ => hr

theorem Lasts.trans {o'' : Outline} (s : Lasts held o o') (s' : Lasts held o' o'') :
    Lasts held o o'' := fun _ _ hr ha => s' (s hr ha) ha

theorem Lasts.anti (s : Lasts held' o o') (hh : held ⊆ held') : Lasts held o o' :=
  fun _ _ hr ha => s hr (ha.subset hh)

theorem Remembers.cache (hr : o.Remembers x t) (hi : o.get? x = some i) : i.cache = some t := by
  obtain ⟨j, hj, -, hc⟩ := hr
  rw [hi] at hj
  rw [Option.some.inj hj, hc]

/-! ### What is within an item -/

theorem Within.tail (hw : o.Within d c) (hk : o.get? c = some k) (ht : k.kind.isTransparent = true)
    (hx : x ∈ k.children) : o.Within d x := by
  induction hw with
  | child hi hc => exact .through hi hc hk ht (.child hk hx)
  | through hi hc hm hmt _ ih => exact .through hi hc hm hmt (ih hk)

theorem WellFormed.below_of_within (w : o.WellFormed) (hw : o.Within d x) :
    ∃ i c, o.get? d = some i ∧ c ∈ i.children ∧ o.Below c x := by
  induction hw with
  | child hi hc => exact ⟨_, _, hi, hc, .self⟩
  | through hi hc _ _ _ ih =>
      obtain ⟨k, e, hk, he, hb⟩ := ih
      exact ⟨_, _, hi, hc, (w.below_child hk he).trans hb⟩

theorem WellFormed.ne_of_within (w : o.WellFormed) (hw : o.Within d x) : x ≠ d := by
  rintro rfl
  obtain ⟨i, c, hi, hc, hb⟩ := w.below_of_within hw
  exact w.not_below_parent hi hc hb

theorem Within.congr (hw : o.Within d x) (ag : AgreeOn Item.frame o o') : o'.Within d x := by
  induction hw with
  | child hi hc =>
      obtain ⟨i', hi', hf⟩ := ag.get?_eq_some hi
      exact .child hi' ((Item.frame_eq_iff.mp hf).2.2.2 ▸ hc)
  | through hi hc hk ht _ ih =>
      obtain ⟨i', hi', hf⟩ := ag.get?_eq_some hi
      obtain ⟨k', hk', hkf⟩ := ag.get?_eq_some hk
      exact .through hi' ((Item.frame_eq_iff.mp hf).2.2.2 ▸ hc) hk'
        ((Item.frame_eq_iff.mp hkf).1 ▸ ht) ih

theorem Touched.within (t : Touched gone l o o') (w : o'.WellFormed) (hd : d ∉ l)
    (hw : o'.Within d x) : x ∉ l ∧ o.Within d x := by
  have below : ∀ {d c i}, d ∉ l → o'.get? d = some i → c ∈ i.children → c ∉ l :=
    fun hd hi hc hcl => hd (t.above hcl (w.below_child hi hc))
  have old : ∀ {d i}, d ∉ l → o'.get? d = some i →
      ∃ i₀, o.get? d = some i₀ ∧ i₀.kind = i.kind ∧ i₀.children = i.children := by
    intro d i hd hi
    obtain ⟨-, i₀, hi₀, hhusk⟩ := t.old hd hi
    obtain ⟨hkind, -, -, hchildren⟩ := Item.frame_eq_iff.mp (Item.husk_eq_iff.mp hhusk).1
    exact ⟨i₀, hi₀, hkind, hchildren⟩
  induction hw with
  | child hi hc =>
      obtain ⟨i₀, hi₀, -, hchildren⟩ := old hd hi
      exact ⟨below hd hi hc, .child hi₀ (hchildren ▸ hc)⟩
  | through hi hc hk ht _ ih =>
      have hcl := below hd hi hc
      obtain ⟨i₀, hi₀, -, hchildren⟩ := old hd hi
      obtain ⟨k₀, hk₀, hkind, -⟩ := old hcl hk
      obtain ⟨hx, hw⟩ := ih hcl
      exact ⟨hx, .through hi₀ (hchildren ▸ hc) hk₀ (hkind ▸ ht) hw⟩

theorem Touched.remembers (t : Touched gone l o o') {u : SharedTree} (hr : o'.Remembers x u) :
    x ∉ l ∧ o.Remembers x u := by
  obtain ⟨j, hj, hclean, hcache⟩ := hr
  have hx : x ∉ l := by
    intro hx
    obtain ⟨j', hj', hdirty⟩ := t.on hx
    rw [hj] at hj'
    rw [← Option.some.inj hj', hclean] at hdirty
    cases hdirty
  obtain ⟨-, i, hi, hhusk⟩ := t.old hx hj
  obtain ⟨-, hc, hd⟩ := Item.husk_eq_iff.mp hhusk
  exact ⟨hx, i, hi, hd.trans hclean, hc.trans hcache⟩

end Outline

namespace Workspace

open Outline

variable {W : Workspace} {o' : Outline} {h d x : Handle} {i j : Item} {t D : SharedTree}
  {held held' : List SharedTree} {gone l : List Handle}

/-- Memory is intact while some trees are held: labels are identities, and the tree of a clean item that
is alive has the objects that the folders and files in it remember. -/
structure Intact (held : List SharedTree) (W : Workspace) : Prop where
  objects : Identified W.next (W.outline.Known held)
  reuses : ∀ {d D}, W.outline.Remembers d D → Alive held D → W.outline.Reuses d D

/-- Trees that are held may be let go, and their parts may be held. -/
theorem Intact.mono (I : W.Intact held) (hh : ∀ t ∈ held', Alive held t) : W.Intact held' := by
  refine ⟨I.objects.mono ?_, fun hr ha => I.reuses hr (ha.mono hh)⟩
  rintro t (ht | ⟨x, hr⟩)
  · obtain ⟨u, hu, hp⟩ := hh t ht
    exact ⟨u, Or.inl hu, hp⟩
  · exact ⟨t, Or.inr ⟨x, hr⟩, .self⟩

theorem Intact.subset (I : W.Intact held) (hh : held' ⊆ held) : W.Intact held' :=
  I.mono fun _ ht => Tree.alive_of_mem (hh ht)

/-- An object that is known is held exactly when it is alive. -/
theorem Intact.isHeld_iff (I : W.Intact held) (ht : W.outline.Known held t) :
    t.isHeld held = true ↔ Alive held t := by
  unfold Tree.isHeld
  rw [List.any_eq_true]
  constructor
  · rintro ⟨u, hu, hl⟩
    obtain ⟨v, hv, hvl⟩ := (Tree.hasLabel_iff_part _ u).mp hl
    obtain rfl := I.objects.same (Or.inl hu) ht hv .self hvl
    exact ⟨u, hu, hv⟩
  · rintro ⟨u, hu, hp⟩
    exact ⟨u, hu, (Tree.hasLabel_iff_part _ u).mpr ⟨t, hp, rfl⟩⟩

/-- What an item recalls is what it remembers while clean, as long as that is alive. -/
theorem Intact.cached_iff (I : W.Intact held) (hi : W.outline.get? x = some i) :
    i.cached held = some t ↔ W.outline.Remembers x t ∧ Alive held t := by
  unfold Item.cached
  split
  · rename_i hd
    refine iff_of_false nofun fun hr => ?_
    obtain ⟨⟨j, hj, hclean, -⟩, -⟩ := hr
    rw [hi] at hj
    rw [Option.some.inj hj, hclean] at hd
    cases hd
  · rename_i hd
    rw [Option.filter_eq_some_iff]
    constructor
    · rintro ⟨hc, hheld⟩
      have hr : W.outline.Remembers x t := ⟨i, hi, Bool.not_eq_true _ ▸ hd, hc⟩
      exact ⟨hr, (I.isHeld_iff (Or.inr ⟨x, hr⟩)).mp hheld⟩
    · rintro ⟨hr, ha⟩
      exact ⟨hr.cache hi, (I.isHeld_iff (Or.inr ⟨x, hr⟩)).mpr ha⟩

/-- An edit leaves memory intact. -/
theorem Intact.edit (I : W.Intact held) (t : Touched gone l W.outline o') (w : o'.WellFormed) :
    ({ W with outline := o' } : Workspace).Intact held := by
  refine ⟨I.objects.mono ?_, fun {d D} hr ha x j hw hj hpath => ?_⟩
  · rintro u (hu | ⟨x, hr⟩)
    · exact ⟨u, Or.inl hu, .self⟩
    · exact ⟨u, Or.inr ⟨x, (t.remembers hr).2⟩, .self⟩
  · obtain ⟨hd, hr⟩ := t.remembers hr
    obtain ⟨hx, hw⟩ := t.within w hd hw
    obtain ⟨-, i, hi, hhusk⟩ := t.old hx hj
    obtain ⟨hf, hc, -⟩ := Item.husk_eq_iff.mp hhusk
    obtain ⟨hkind, hname, -⟩ := Item.frame_eq_iff.mp hf
    obtain ⟨u, hu, hmem⟩ := I.reuses hr ha hw hi (hkind ▸ hpath)
    exact ⟨u, hc ▸ hu, hname ▸ hmem⟩

/-- An item may remember another object than before, unless it remembers one that is alive.  The
folders and files in trees that are alive do. -/
theorem Intact.remember (I : W.Intact held) (w : W.outline.WellFormed)
    (closed : W.outline.DirtyClosed) (hi : W.outline.get? h = some i)
    (hstale : ∀ t, W.outline.Remembers h t → ¬ Alive held t) (hD : D ∈ held) {dirty : Bool}
    (hreuses : dirty = false → W.outline.Reuses h D) :
    ({ W with outline := W.outline.set h { i with dirty, cache := some D } } : Workspace).Intact
      held := by
  have ag : AgreeOn Item.frame W.outline (W.outline.set h { i with dirty, cache := some D }) :=
    .set hi rfl
  have self : ∀ {t}, (W.outline.set h { i with dirty, cache := some D }).Remembers h t →
      dirty = false ∧ t = D := by
    rintro t ⟨j, hj, hclean, hcache⟩
    obtain rfl := Option.some.inj ((get?_set_self hi _).symm.trans hj)
    exact ⟨hclean, (Option.some.inj hcache).symm⟩
  have off : ∀ {x t}, x ≠ h →
      (W.outline.set h { i with dirty, cache := some D }).Remembers x t →
      W.outline.Remembers x t := by
    rintro x t hx ⟨j, hj, hr⟩
    rw [get?_set_of_ne hi _ hx] at hj
    exact ⟨j, hj, hr⟩
  refine ⟨I.objects.mono ?_, fun {d E} hr ha x j hw hj hpath => ?_⟩
  · rintro t (ht | ⟨x, hr⟩)
    · exact ⟨t, Or.inl ht, .self⟩
    · by_cases hx : x = h
      · obtain ⟨-, rfl⟩ := self (hx ▸ hr)
        exact ⟨t, Or.inl hD, .self⟩
      · exact ⟨t, Or.inr ⟨x, off hx hr⟩, .self⟩
  · have hw₀ : W.outline.Within d x := hw.congr ag.symm
    by_cases hd : d = h
    · subst hd
      obtain ⟨hclean, rfl⟩ := self hr
      rw [get?_set_of_ne hi _ (w.ne_of_within hw₀)] at hj
      exact hreuses hclean hw₀ hj hpath
    · have hr₀ := off hd hr
      rcases of_get?_set hi hj with ⟨rfl, rfl⟩ | ⟨-, hj⟩
      · -- the object that `h` remembers is in a tree that is alive
        obtain ⟨t, ht, hmem⟩ := I.reuses hr₀ ha hw₀ hi hpath
        have hclean : i.dirty = false := by
          obtain ⟨k, c, hk, hc, hb⟩ := w.below_of_within hw₀
          obtain ⟨k', hk', hkclean, -⟩ := hr₀
          exact closed.clean_below ((w.below_child hk hc).trans hb) hk' hkclean hi
        exact absurd (ha.part (Tree.part_of_mem_entries hmem)) (hstale t ⟨i, hi, hclean, ht⟩)
      · exact I.reuses hr₀ ha hw₀ hj hpath

theorem lasts_set (hi : W.outline.get? h = some i)
    (hstale : ∀ t, W.outline.Remembers h t → ¬ Alive held t) (j : Item) :
    Lasts held W.outline (W.outline.set h j) := by
  intro x t hr ha
  by_cases hx : x = h
  · exact absurd ha (hstale t (hx ▸ hr))
  · obtain ⟨k, hk, hrest⟩ := hr
    exact ⟨k, by rw [get?_set_of_ne hi _ hx, hk], hrest⟩

end Workspace

end PackageOutline
