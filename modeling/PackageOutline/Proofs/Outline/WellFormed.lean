import PackageOutline.Proofs.Outline.Arena

/-! # Well-formed outlines

`Outline.WellFormed` is what every operation keeps: children are live and name their parent, kinds
nest as they may, siblings have different names, parents stand above their children.
`Outline.Attached` says in addition that nothing is live but the tree below the root.

* `Outline.Ascent h l top`: following parents from `h` passes the items `l`.  Every live item has one
  (`WellFormed.exists_ascent`); it passes no item twice (`WellFormed.ascent_nodup`).
* `Outline.Line h l`: the ascent `l` of `h` arrives at the root.  In an attached outline every live
  item has one (`WellFormed.exists_line`).
* `Outline.Below x y`: the item `y` is `x` or stands below it; that is, `x` is on the line of `y`.
* `Outline.Fits n h`: at and below `h` there are at most `n` levels.  It is the induction that every
  recursion on the outline with a bound on the depth follows; `WellFormed.fits` gives the bound. -/

namespace PackageOutline

/-- What makes up the tree: kind, name, parent and children. -/
def Item.frame (i : Item) : Kind × String × Option Handle × List Handle :=
  (i.kind, i.name, i.parent, i.children)

/-- What an item is made as: kind, name and parent. -/
def Item.stem (i : Item) : Kind × String × Option Handle := (i.kind, i.name, i.parent)

/-- Where an item stands: kind and parent. -/
def Item.standing (i : Item) : Kind × Option Handle := (i.kind, i.parent)

theorem Item.standing_eq_iff {i j : Item} : i.standing = j.standing ↔
    i.kind = j.kind ∧ i.parent = j.parent := by
  simp [standing]

theorem Item.stem_eq_iff {i j : Item} : i.stem = j.stem ↔
    i.kind = j.kind ∧ i.name = j.name ∧ i.parent = j.parent := by
  simp [stem]

theorem Item.frame_eq_iff {i j : Item} : i.frame = j.frame ↔
    i.kind = j.kind ∧ i.name = j.name ∧ i.parent = j.parent ∧ i.children = j.children := by
  simp [frame]

/-- The items that an item refers to. -/
def Item.links (i : Item) : Option Handle × List Handle := (i.parent, i.children)

namespace Outline

variable {o o' : Outline} {h x y z c p : Handle} {i j k : Item} {l l' : List Handle}
  {top : Option Handle}

/-- The tree of an outline is in order. -/
structure WellFormed (o : Outline) : Prop where
  root : ∃ i, o.get? root = some i ∧ i.kind = .package ∧ i.parent = none
  free : o.FreeExact
  child : ∀ {p j c}, o.get? p = some j → c ∈ j.children →
    ∃ i, o.get? c = some i ∧ i.parent = some p
  placed : ∀ {h i p j}, o.get? h = some i → i.parent = some p → o.get? p = some j →
    j.kind.admits i.kind = true
  nodup : ∀ {p j}, o.get? p = some j → j.children.Nodup
  siblings : ∀ {p j c d i k}, o.get? p = some j → c ∈ j.children → d ∈ j.children →
    o.get? c = some i → o.get? d = some k → i.name = k.name → c = d
  orphan : ∀ {h i}, o.get? h = some i → i.parent = none → h = Outline.root
  valid : ∀ {h i}, o.get? h = some i → h ≠ Outline.root → Identifier.isValid i.name = true
  group : ∀ {h i}, o.get? h = some i → i.kind = .group →
    i.parent = some Outline.root ∧ Identifier.isGroup i.name = true
  ranked : ∃ rank : Handle → Nat, ∀ {h i p j}, o.get? h = some i → i.parent = some p →
    o.get? p = some j → rank p < rank h

/-- Every live item but the root is among the children of its parent. -/
def Attached (o : Outline) : Prop :=
  ∀ ⦃h i⦄, o.get? h = some i → h ≠ root →
    ∃ p j, i.parent = some p ∧ o.get? p = some j ∧ h ∈ j.children

/-- Items that the root leads to. -/
inductive Reachable (o : Outline) : Handle → Prop
  | root : Reachable o root
  | child {p c : Handle} {j : Item} :
      Reachable o p → o.get? p = some j → c ∈ j.children → Reachable o c

/-- `Line h l`: the items from `h` up to the root are those of `l`. -/
inductive Line (o : Outline) : Handle → List Handle → Prop
  | root {i : Item} : o.get? root = some i → i.parent = none → Line o root [root]
  | step {h p : Handle} {i : Item} {l : List Handle} :
      o.get? h = some i → i.parent = some p → Line o p l → Line o h (h :: l)

/-- `Ascent h l top`: following parents from `h` passes the items `l`.  It ends at an item without a
parent, where `top` is none, or at the handle `top` of a parent that is not there. -/
inductive Ascent (o : Outline) : Handle → List Handle → Option Handle → Prop
  | root {h : Handle} {i : Item} : o.get? h = some i → i.parent = none → Ascent o h [h] none
  | lost {h p : Handle} {i : Item} :
      o.get? h = some i → i.parent = some p → o.get? p = none → Ascent o h [h] (some p)
  | step {h p : Handle} {i : Item} {l : List Handle} {top : Option Handle} :
      o.get? h = some i → i.parent = some p → Ascent o p l top → Ascent o h (h :: l) top

/-- `Below x y`: the item `y` is `x` or stands below it. -/
inductive Below (o : Outline) (x : Handle) : Handle → Prop
  | self : Below o x x
  | step {y p : Handle} {i : Item} :
      o.get? y = some i → i.parent = some p → Below o x p → Below o x y

/-- At and below an item there are at most `n` levels of items. -/
def Fits (o : Outline) : (n : Nat) → Handle → Prop
  | 0, _ => False
  | n + 1, h => ∃ i, o.get? h = some i ∧ ∀ c ∈ i.children, o.Fits n c

theorem WellFormed.ne_root (w : o.WellFormed) (hi : o.get? h = some i)
    (hk : i.kind.namesPath = true) : h ≠ Outline.root := by
  rintro rfl
  obtain ⟨r, hr, hpackage, -⟩ := w.root
  rw [hi] at hr
  rw [Option.some.inj hr, hpackage] at hk
  cases hk

theorem WellFormed.children_file (w : o.WellFormed) (hi : o.get? h = some i)
    (hk : i.kind = .file) : i.children = [] := by
  refine List.eq_nil_iff_forall_not_mem.mpr fun c hc => ?_
  obtain ⟨k, hkc, hp⟩ := w.child hi hc
  have hadmits := w.placed hkc hp hi
  rw [hk, Kind.admits_file] at hadmits
  cases hadmits

/-! ### Ranks -/

/-- Induction from parents to children. -/
theorem WellFormed.parent_induction (w : o.WellFormed) {P : Handle → Prop}
    (step : ∀ h i, o.get? h = some i →
      (∀ p j, i.parent = some p → o.get? p = some j → P p) → P h) :
    ∀ h i, o.get? h = some i → P h := by
  obtain ⟨rank, hr⟩ := w.ranked
  have main : ∀ n h i, rank h = n → o.get? h = some i → P h := by
    intro n
    induction n using Nat.strongRecOn with
    | _ n ih =>
        intro h i hn hi
        refine step h i hi fun p j hp hj => ?_
        have hlt := hr hi hp hj
        exact ih (rank p) (hn ▸ hlt) p j rfl hj
  exact fun h i hi => main _ h i rfl hi

/-! ### Ascents -/

theorem Ascent.live (a : o.Ascent h l top) : ∀ x ∈ l, ∃ i, o.get? x = some i := by
  induction a with
  | root hi _ =>
      intro x hx
      rw [List.mem_singleton.mp hx]
      exact ⟨_, hi⟩
  | lost hi _ _ =>
      intro x hx
      rw [List.mem_singleton.mp hx]
      exact ⟨_, hi⟩
  | step hi _ _ ih =>
      intro x hx
      rcases List.mem_cons.mp hx with rfl | hx
      · exact ⟨_, hi⟩
      · exact ih x hx

theorem Ascent.self_mem (a : o.Ascent h l top) : h ∈ l := by
  cases a <;> simp

/-- Every live item has an ascent. -/
theorem WellFormed.exists_ascent (w : o.WellFormed) (hi : o.get? h = some i) :
    ∃ l top, o.Ascent h l top := by
  refine w.parent_induction (P := fun h => ∃ l top, o.Ascent h l top) ?_ h i hi
  intro h i hi ih
  cases hp : i.parent with
  | none => exact ⟨_, _, .root hi hp⟩
  | some p =>
      cases hj : o.get? p with
      | none => exact ⟨_, _, .lost hi hp hj⟩
      | some j =>
          obtain ⟨l, top, a⟩ := ih p j hp hj
          exact ⟨_, _, .step hi hp a⟩

/-- No item is its own ancestor, so an ascent passes none twice. -/
theorem WellFormed.ascent_nodup (w : o.WellFormed) (a : o.Ascent h l top) : l.Nodup := by
  obtain ⟨rank, hr⟩ := w.ranked
  have main : l.Nodup ∧ ∀ x ∈ l, rank x ≤ rank h := by
    induction a with
    | root _ _ => simp
    | lost _ _ _ => simp
    | @step h p i l top hi hp a ih =>
        obtain ⟨hnd, hle⟩ := ih
        obtain ⟨j, hj⟩ := a.live p a.self_mem
        have hlt := hr hi hp hj
        refine ⟨List.nodup_cons.mpr ⟨fun hmem => ?_, hnd⟩, fun x hx => ?_⟩
        · have := hle h hmem
          omega
        · rcases List.mem_cons.mp hx with rfl | hx
          · exact Nat.le_refl _
          · have := hle x hx
            omega
  exact main.1

/-! ### Lines -/

theorem Line.ascent (hl : o.Line h l) : o.Ascent h l none := by
  induction hl with
  | root hi hp => exact .root hi hp
  | step hi hp _ ih => exact .step hi hp ih

theorem Line.live (hl : o.Line h l) : ∀ x ∈ l, ∃ i, o.get? x = some i := hl.ascent.live

theorem Line.self_mem (hl : o.Line h l) : h ∈ l := hl.ascent.self_mem

theorem Line.root_mem (hl : o.Line h l) : Outline.root ∈ l := by
  induction hl with
  | root _ _ => exact List.mem_singleton_self _
  | step _ _ _ ih => exact List.mem_cons_of_mem _ ih

theorem Line.congr (hl : o.Line h l)
    (hp : ∀ x ∈ l, (o'.get? x).map Item.parent = (o.get? x).map Item.parent) : o'.Line h l := by
  induction hl with
  | root hi hn =>
      have hg := hp _ (List.mem_singleton_self _)
      rw [hi, Option.map_some] at hg
      obtain ⟨j, hj, hji⟩ := Option.map_eq_some_iff.mp hg
      exact .root hj (hji.trans hn)
  | step hi hn _ ih =>
      have hg := hp _ List.mem_cons_self
      rw [hi, Option.map_some] at hg
      obtain ⟨j, hj, hji⟩ := Option.map_eq_some_iff.mp hg
      exact .step hj (hji.trans hn) (ih fun x hx => hp x (List.mem_cons_of_mem _ hx))

theorem Line.congr_stem (hl : o.Line h l)
    (hs : ∀ x ∈ l, (o'.get? x).map Item.stem = (o.get? x).map Item.stem) : o'.Line h l := by
  refine hl.congr fun x hx => ?_
  have hm := congrArg (Option.map fun f => f.2.2) (hs x hx)
  rw [Option.map_map, Option.map_map] at hm
  exact hm

theorem WellFormed.line_nodup (w : o.WellFormed) (hl : o.Line h l) : l.Nodup :=
  w.ascent_nodup hl.ascent

theorem WellFormed.line_length_le (w : o.WellFormed) (hl : o.Line h l) :
    l.length ≤ o.itemCount :=
  w.free.length_le_itemCount (w.line_nodup hl) hl.live

theorem WellFormed.exists_line (w : o.WellFormed) (a : o.Attached) (hi : o.get? h = some i) :
    ∃ l, o.Line h l := by
  refine w.parent_induction (P := fun h => ∃ l, o.Line h l) ?_ h i hi
  intro h i hi ih
  by_cases hr : h = Outline.root
  · obtain ⟨j, hj, -, hp⟩ := w.root
    subst hr
    exact ⟨_, .root hj hp⟩
  · obtain ⟨p, j, hp, hj, -⟩ := a hi hr
    obtain ⟨l, hl⟩ := ih p j hp hj
    exact ⟨_, .step hi hp hl⟩

theorem WellFormed.parent_of (w : o.WellFormed) (a : o.Attached) (hi : o.get? h = some i)
    (hp : i.parent = some p) : ∃ j, o.get? p = some j ∧ h ∈ j.children := by
  have hr : h ≠ Outline.root := by
    rintro rfl
    obtain ⟨r, hroot, -, hnone⟩ := w.root
    rw [hi] at hroot
    obtain rfl := Option.some.inj hroot
    rw [hp] at hnone
    cases hnone
  obtain ⟨q, j, hq, hj, hmem⟩ := a hi hr
  rw [hp] at hq
  obtain rfl := Option.some.inj hq
  exact ⟨j, hj, hmem⟩

/-! ### What stands below an item -/

theorem Below.trans (hxy : o.Below x y) (hyz : o.Below y z) : o.Below x z := by
  induction hyz with
  | self => exact hxy
  | step hi hp _ ih => exact .step hi hp ih

theorem Below.congr (hb : o.Below x y) (hp : ∀ {z k}, o.get? z = some k →
    ∃ k', o'.get? z = some k' ∧ k'.parent = k.parent) : o'.Below x y := by
  induction hb with
  | self => exact .self
  | step hi hq _ ih =>
      obtain ⟨k', hk', hkp⟩ := hp hi
      exact .step hk' (hkp.trans hq) ih

theorem Below.mem_line (hb : o.Below x y) (hl : o.Line y l) : x ∈ l := by
  induction hb generalizing l with
  | self => exact hl.self_mem
  | step hi hp _ ih =>
      cases hl with
      | root hi' hp' =>
          rw [hi] at hi'
          obtain rfl := Option.some.inj hi'
          rw [hp] at hp'
          cases hp'
      | step hi' hp' hl =>
          rw [hi] at hi'
          obtain rfl := Option.some.inj hi'
          rw [hp] at hp'
          obtain rfl := Option.some.inj hp'
          exact List.mem_cons_of_mem _ (ih hl)

theorem Line.below_of_mem (hl : o.Line y l) (hx : x ∈ l) : o.Below x y := by
  induction hl with
  | root _ _ =>
      rw [List.mem_singleton.mp hx]
      exact .self
  | step hi hp _ ih =>
      rcases List.mem_cons.mp hx with rfl | hx
      · exact .self
      · exact .step hi hp (ih hx)

theorem Line.mem_iff (hl : o.Line y l) : x ∈ l ↔ o.Below x y :=
  ⟨hl.below_of_mem, fun hb => hb.mem_line hl⟩

theorem WellFormed.below_child (w : o.WellFormed) (hj : o.get? p = some j)
    (hc : c ∈ j.children) : o.Below p c := by
  obtain ⟨i, hi, hp⟩ := w.child hj hc
  exact .step hi hp .self

/-- Of two items above a third one, one stands above the other. -/
theorem Below.linear (hx : o.Below x z) (hy : o.Below y z) : o.Below x y ∨ o.Below y x := by
  induction hx with
  | self => exact Or.inr hy
  | @step z p i hi hp hx ih =>
      cases hy with
      | self => exact Or.inl (.step hi hp hx)
      | step hi' hp' hy =>
          rw [hi] at hi'
          obtain rfl := Option.some.inj hi'
          rw [hp] at hp'
          obtain rfl := Option.some.inj hp'
          exact ih hy

theorem WellFormed.not_below_parent (w : o.WellFormed) (hj : o.get? p = some j)
    (hc : c ∈ j.children) : ¬ o.Below c p := by
  obtain ⟨rank, hr⟩ := w.ranked
  obtain ⟨i, hi, hp⟩ := w.child hj hc
  have hlt := hr hi hp hj
  intro hb
  have hle : rank c ≤ rank p := by
    clear hlt hj hc hp
    induction hb with
    | self => exact Nat.le_refl _
    | @step y q k hk hq hb ih =>
        have hq' : ∃ m, o.get? q = some m := by
          cases hb with
          | self => exact ⟨i, hi⟩
          | step hm _ _ => exact ⟨_, hm⟩
        obtain ⟨m, hm⟩ := hq'
        have := hr hk hq hm
        omega
  omega

theorem WellFormed.below_of_children (w : o.WellFormed) (hj : o.get? p = some j)
    (hz : ∃ c ∈ j.children, o.Below c z) : o.Below p z := by
  obtain ⟨c, hc, hb⟩ := hz
  exact (w.below_child hj hc).trans hb

theorem WellFormed.not_below_children (w : o.WellFormed) (hj : o.get? p = some j) :
    ¬ ∃ c ∈ j.children, o.Below c p := by
  rintro ⟨c, hc, hb⟩
  exact w.not_below_parent hj hc hb

theorem WellFormed.children_disjoint (w : o.WellFormed) {d : Handle} (hj : o.get? p = some j)
    (hc : c ∈ j.children) (hd : d ∈ j.children) (hcz : o.Below c z) (hdz : o.Below d z) :
    c = d := by
  have key : ∀ {a b : Handle}, a ∈ j.children → b ∈ j.children → o.Below a b → a = b := by
    intro a b ha hb hab
    cases hab with
    | self => rfl
    | step hi hp hab =>
        obtain ⟨i', hi', hp'⟩ := w.child hj hb
        rw [hi] at hi'
        obtain rfl := Option.some.inj hi'
        rw [hp] at hp'
        obtain rfl := Option.some.inj hp'
        exact absurd hab (w.not_below_parent hj ha)
  rcases hcz.linear hdz with hb | hb
  · exact key hc hd hb
  · exact (key hd hc hb).symm

/-! ### What the root leads to -/

theorem WellFormed.live_of_reachable (w : o.WellFormed) (hr : o.Reachable h) :
    ∃ i, o.get? h = some i := by
  cases hr with
  | root =>
      obtain ⟨i, hi, -⟩ := w.root
      exact ⟨i, hi⟩
  | child _ hj hc =>
      obtain ⟨i, hi, -⟩ := w.child hj hc
      exact ⟨i, hi⟩

theorem WellFormed.reachable (w : o.WellFormed) (a : o.Attached) (hi : o.get? h = some i) :
    o.Reachable h := by
  refine w.parent_induction ?_ h i hi
  intro h i hi ih
  by_cases hr : h = Outline.root
  · rw [hr]
    exact .root
  · obtain ⟨p, j, hp, hj, hmem⟩ := a hi hr
    exact .child (ih p j hp hj) hj hmem

theorem WellFormed.below_root (w : o.WellFormed) (a : o.Attached) (hi : o.get? h = some i) :
    o.Below Outline.root h := by
  obtain ⟨l, hl⟩ := w.exists_line a hi
  exact hl.below_of_mem hl.root_mem

theorem WellFormed.eq_root_of_below (w : o.WellFormed) (hb : o.Below h Outline.root) :
    h = Outline.root := by
  obtain ⟨r, hr, -, hnone⟩ := w.root
  cases hb with
  | self => rfl
  | step hi hp _ =>
      rw [hr] at hi
      rw [← Option.some.inj hi, hnone] at hp
      cases hp

/-! ### Depth -/

theorem Fits.mono {n m : Nat} (hf : o.Fits n h) (hnm : n ≤ m) : o.Fits m h := by
  induction n generalizing m h with
  | zero => exact hf.elim
  | succ n ih =>
      obtain ⟨m, rfl⟩ : ∃ m', m = m' + 1 := ⟨m - 1, by omega⟩
      obtain ⟨i, hi, hc⟩ := hf
      exact ⟨i, hi, fun c hmem => ih (hc c hmem) (by omega)⟩

theorem WellFormed.fits_of_chain (w : o.WellFormed) {rank : Handle → Nat}
    (hr : ∀ {h i p j}, o.get? h = some i → i.parent = some p → o.get? p = some j →
      rank p < rank h)
    (hi : o.get? h = some i) (hnd : l.Nodup) (live : ∀ x ∈ l, ∃ i, o.get? x = some i)
    (hle : ∀ x ∈ l, rank x < rank h) {n : Nat} (hn : o.slots.size ≤ l.length + n) :
    o.Fits n h := by
  have hcons : (h :: l).Nodup :=
    List.nodup_cons.mpr ⟨fun hmem => Nat.lt_irrefl _ (hle h hmem), hnd⟩
  have hlive : ∀ x ∈ h :: l, ∃ i, o.get? x = some i := by
    intro x hx
    rcases List.mem_cons.mp hx with rfl | hx
    · exact ⟨i, hi⟩
    · exact live x hx
  induction n generalizing h i l with
  | zero =>
      have hle := w.free.length_le_itemCount hcons hlive
      rw [List.length_cons] at hle
      have := itemCount_le_size o
      omega
  | succ n ih =>
      refine ⟨i, hi, fun c hc => ?_⟩
      obtain ⟨k, hk, hp⟩ := w.child hi hc
      have hlt := hr hk hp hi
      have hle' : ∀ x ∈ h :: l, rank x < rank c := by
        intro x hx
        rcases List.mem_cons.mp hx with rfl | hx
        · exact hlt
        · exact Nat.lt_trans (hle x hx) hlt
      refine ih hk hcons hlive hle' (by rw [List.length_cons]; omega)
        (List.nodup_cons.mpr ⟨fun hmem => Nat.lt_irrefl _ (hle' c hmem), hcons⟩) ?_
      intro x hx
      rcases List.mem_cons.mp hx with rfl | hx
      · exact ⟨k, hk⟩
      · exact hlive x hx

/-- There are at most as many levels as slots. -/
theorem WellFormed.fits (w : o.WellFormed) (hi : o.get? h = some i) : o.Fits o.slots.size h := by
  obtain ⟨rank, hr⟩ := w.ranked
  exact w.fits_of_chain hr hi List.nodup_nil (by simp) (by simp) (by simp)

/-! ### Outlines with the same tree -/

/-- Order depends on where items stand, when names and lists of children are in order. -/
theorem WellFormed.of_standing (ag : AgreeOn Item.standing o o') (w : o.WellFormed)
    (child : ∀ {p j c}, o'.get? p = some j → c ∈ j.children →
      ∃ i, o.get? c = some i ∧ i.parent = some p)
    (nodup : ∀ {p j}, o'.get? p = some j → j.children.Nodup)
    (siblings : ∀ {p j c d i k}, o'.get? p = some j → c ∈ j.children → d ∈ j.children →
      o'.get? c = some i → o'.get? d = some k → i.name = k.name → c = d)
    (valid : ∀ {h i}, o'.get? h = some i → h ≠ Outline.root → Identifier.isValid i.name = true)
    (group : ∀ {h i}, o'.get? h = some i → i.kind = .group → Identifier.isGroup i.name = true) :
    o'.WellFormed := by
  have back : ∀ {h i}, o'.get? h = some i → ∃ j, o.get? h = some j ∧ j.kind = i.kind ∧
      j.parent = i.parent := by
    intro h i hi
    obtain ⟨j, hj, hf⟩ := ag.symm.get?_eq_some hi
    exact ⟨j, hj, Item.standing_eq_iff.mp hf⟩
  have forth : ∀ {h i}, o.get? h = some i → ∃ j, o'.get? h = some j ∧ j.kind = i.kind ∧
      j.parent = i.parent := by
    intro h i hi
    obtain ⟨j, hj, hf⟩ := ag.get?_eq_some hi
    exact ⟨j, hj, Item.standing_eq_iff.mp hf⟩
  constructor
  case root =>
    obtain ⟨i, hi, hk, hp⟩ := w.root
    obtain ⟨j, hj, hjk, hjp⟩ := forth hi
    exact ⟨j, hj, hjk.trans hk, hjp.trans hp⟩
  case free => exact ag.freeExact w.free
  case child =>
    intro p j c hj hc
    obtain ⟨i, hi, hp⟩ := child hj hc
    obtain ⟨i', hi', -, hip⟩ := forth hi
    exact ⟨i', hi', hip.trans hp⟩
  case placed =>
    intro h i p j hi hp hj
    obtain ⟨i₀, hi₀, hik, hip⟩ := back hi
    obtain ⟨j₀, hj₀, hjk, -⟩ := back hj
    rw [← hik, ← hjk]
    exact w.placed hi₀ (hip.trans hp) hj₀
  case nodup => exact nodup
  case siblings => exact siblings
  case orphan =>
    intro h i hi hp
    obtain ⟨i₀, hi₀, -, hip⟩ := back hi
    exact w.orphan hi₀ (hip.trans hp)
  case valid => exact valid
  case group =>
    intro h i hi hg
    obtain ⟨i₀, hi₀, hik, hip⟩ := back hi
    exact ⟨hip ▸ (w.group hi₀ (hik.trans hg)).1, group hi hg⟩
  case ranked =>
    obtain ⟨rank, hr⟩ := w.ranked
    refine ⟨rank, ?_⟩
    intro h i p j hi hp hj
    obtain ⟨i₀, hi₀, -, hip⟩ := back hi
    obtain ⟨j₀, hj₀, -⟩ := back hj
    exact hr hi₀ (hip.trans hp) hj₀

theorem AgreeOn.standing (ag : AgreeOn Item.stem o o') : AgreeOn Item.standing o o' :=
  ag.comp (fun f => (f.1, f.2.2)) fun _ => rfl

/-- Order depends on what items are made as, when the lists of children are in order. -/
theorem WellFormed.of_stem (ag : AgreeOn Item.stem o o') (w : o.WellFormed)
    (child : ∀ {p j c}, o'.get? p = some j → c ∈ j.children →
      ∃ i, o.get? c = some i ∧ i.parent = some p)
    (nodup : ∀ {p j}, o'.get? p = some j → j.children.Nodup)
    (siblings : ∀ {p j c d i k}, o'.get? p = some j → c ∈ j.children → d ∈ j.children →
      o.get? c = some i → o.get? d = some k → i.name = k.name → c = d) : o'.WellFormed := by
  have back : ∀ {h i}, o'.get? h = some i → ∃ j, o.get? h = some j ∧ j.kind = i.kind ∧
      j.name = i.name := by
    intro h i hi
    obtain ⟨j, hj, hf⟩ := ag.symm.get?_eq_some hi
    obtain ⟨hk, hn, -⟩ := Item.stem_eq_iff.mp hf
    exact ⟨j, hj, hk, hn⟩
  refine w.of_standing ag.standing child nodup ?_ ?_ ?_
  · intro p j c d i k hj hc hd hi hk hn
    obtain ⟨i₀, hi₀, -, hin⟩ := back hi
    obtain ⟨k₀, hk₀, -, hkn⟩ := back hk
    exact siblings hj hc hd hi₀ hk₀ (by rw [hin, hkn, hn])
  · intro h i hi hr
    obtain ⟨i₀, hi₀, -, hin⟩ := back hi
    exact hin ▸ w.valid hi₀ hr
  · intro h i hi hg
    obtain ⟨i₀, hi₀, hik, hin⟩ := back hi
    exact hin ▸ (w.group hi₀ (hik.trans hg)).2

theorem AgreeOn.stem (ag : AgreeOn Item.frame o o') : AgreeOn Item.stem o o' :=
  ag.comp (fun f => (f.1, f.2.1, f.2.2.1)) fun _ => rfl

theorem AgreeOn.children (ag : AgreeOn Item.frame o o') (hi : o'.get? h = some i) :
    ∃ j, o.get? h = some j ∧ j.children = i.children := by
  obtain ⟨j, hj, hf⟩ := ag.symm.get?_eq_some hi
  exact ⟨j, hj, (Item.frame_eq_iff.mp hf).2.2.2⟩

theorem WellFormed.congr (ag : AgreeOn Item.frame o o') (w : o.WellFormed) : o'.WellFormed := by
  refine w.of_stem ag.stem ?_ ?_ ?_
  · intro p j c hj hc
    obtain ⟨j₀, hj₀, hjc⟩ := ag.children hj
    exact w.child hj₀ (hjc ▸ hc)
  · intro p j hj
    obtain ⟨j₀, hj₀, hjc⟩ := ag.children hj
    exact hjc ▸ w.nodup hj₀
  · intro p j c d i k hj hc hd hi hk hn
    obtain ⟨j₀, hj₀, hjc⟩ := ag.children hj
    exact w.siblings hj₀ (hjc ▸ hc) (hjc ▸ hd) hi hk hn

theorem Ascent.congr (a : o.Ascent h l top) (ag : AgreeOn Item.parent o o') :
    o'.Ascent h l top := by
  induction a with
  | root hi hp =>
      obtain ⟨j, hj, hji⟩ := ag.get?_eq_some hi
      exact .root hj (hji.trans hp)
  | @lost h p i hi hp hnone =>
      obtain ⟨j, hj, hji⟩ := ag.get?_eq_some hi
      refine .lost hj (hji.trans hp) ?_
      have hm := ag.get p
      rw [hnone] at hm
      exact Option.map_eq_none_iff.mp hm
  | step hi hp _ ih =>
      obtain ⟨j, hj, hji⟩ := ag.get?_eq_some hi
      exact .step hj (hji.trans hp) ih

theorem AgreeOn.links (ag : AgreeOn Item.frame o o') : AgreeOn Item.links o o' :=
  ag.comp (fun f => f.2.2) fun _ => rfl

theorem Attached.congr (ag : AgreeOn Item.links o o') (a : o.Attached) : o'.Attached := by
  intro h i hi hr
  obtain ⟨i₀, hi₀, hf⟩ := ag.symm.get?_eq_some hi
  obtain ⟨p, j₀, hp, hj₀, hmem⟩ := a hi₀ hr
  obtain ⟨j, hj, hjf⟩ := ag.get?_eq_some hj₀
  obtain ⟨hip, -⟩ := Prod.mk.inj hf
  obtain ⟨-, hjc⟩ := Prod.mk.inj hjf
  exact ⟨p, j, hip ▸ hp, hj, hjc ▸ hmem⟩

theorem AgreeOn.line (ag : AgreeOn Item.stem o o') (hl : o.Line h l) : o'.Line h l := by
  have hp : AgreeOn Item.parent o o' := ag.comp (fun f => f.2.2) fun _ => rfl
  exact hl.congr fun x _ => hp.get x

theorem AgreeOn.line_of_links (ag : AgreeOn Item.links o o') (hl : o.Line h l) :
    o'.Line h l := by
  have hp : AgreeOn Item.parent o o' := ag.comp Prod.fst fun _ => rfl
  exact hl.congr fun x _ => hp.get x

theorem AgreeOn.below (ag : AgreeOn Item.links o o') (hb : o.Below x y) : o'.Below x y := by
  refine hb.congr fun hk => ?_
  obtain ⟨k', hk', hf⟩ := ag.get?_eq_some hk
  exact ⟨k', hk', congrArg Prod.fst hf⟩

end Outline

end PackageOutline
