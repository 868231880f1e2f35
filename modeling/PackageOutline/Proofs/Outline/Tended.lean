import PackageOutline.Proofs.Outline.Fresh
import PackageOutline.Proofs.Outline.Generations
import PackageOutline.Proofs.Outline.KeptContents
import PackageOutline.Proofs.Outline.Removal

/-! # Outlines with detached items

Callers may make items and leave them unattached, and may be refused halfway.  What every outline
has nevertheless is `Outline.Tended n`: the tree is in order, a parent that is not there any more
belongs to the past of its slot, and no slot is beyond generation `n`.  Then no new item is taken
for the parent of an old one, and that is all that making items needs.

Generations go up only when items are released, by one with each item, so `n` may be the number of
items released so far: `Tended.remove` counts them.  `Releases` is the sequence of releases that
removing an item comes to, whatever else is detached (`WellFormed.remove_cases`). -/

namespace PackageOutline

namespace Outline

variable {o o' s s' : Outline} {h p : Handle} {i j : Item} {n m : Nat} {pending gone : List Handle}

/-- The tree is in order, parents are live or of the past, and no slot is beyond generation `n`. -/
structure Tended (n : Nat) (o : Outline) : Prop where
  tree : o.WellFormed
  known : ∀ {h i p}, o.get? h = some i → i.parent = some p → (∃ j, o.get? p = some j) ∨ o.Past p
  bounded : ∀ {m g}, o.generation? m = some g → g.toNat ≤ n

theorem Tended.mono (t : Tended n o) (hnm : n ≤ m) : Tended m o :=
  ⟨t.tree, t.known, fun hg => Nat.le_trans (t.bounded hg) hnm⟩

theorem tended_new (package : String) (document : Option SharedTree) :
    Tended 0 (new package document) := by
  refine ⟨(fresh_new package document).tree, fun {h i p} hi hp => ?_, fun {m g} hg => ?_⟩
  · rw [get?_new] at hi
    split at hi
    · rw [← Option.some.inj hi] at hp
      cases hp
    · cases hi
  · cases m with
    | zero =>
        obtain rfl := Option.some.inj hg
        exact Nat.le_refl 0
    | succ m => cases hg

theorem Tended.of_parents (t : Tended n o) (a : Alike Item.parent o o') (w : o'.WellFormed) :
    Tended n o' := by
  refine ⟨w, fun {h i p} hi hp => ?_, fun {m g} hg => ?_⟩
  · obtain ⟨i₀, hi₀, hip⟩ := a.agree.symm.get?_eq_some hi
    rcases t.known hi₀ (hip.trans hp) with ⟨j, hj⟩ | hpast
    · obtain ⟨j', hj', -⟩ := a.agree.get?_eq_some hj
      exact Or.inl ⟨j', hj'⟩
    · exact Or.inr (a.past hpast)
  · rw [a.generations] at hg
    exact t.bounded hg

theorem Tended.alike (t : Tended n o) (a : Alike Item.frame o o') : Tended n o' :=
  t.of_parents (a.comp (fun f => f.2.2.1) fun _ => rfl) (t.tree.congr a.agree)

/-- One item may be given other children. -/
theorem Tended.setChildren {cs : List Handle} (t : Tended n o) (hj : o.get? p = some j)
    (w : (o.set p { j with children := cs }).WellFormed) :
    Tended n (o.set p { j with children := cs }) :=
  t.of_parents (.set hj rfl) w

/-! ### New items -/

theorem Tended.parent_ne_of_allocate (t : Tended n o) (ha : o.allocate i = .ok (h, o')) {x : Handle}
    {k : Item} (hk : o.get? x = some k) : k.parent ≠ some h := by
  intro hp
  obtain ⟨new, -⟩ := t.tree.free.allocate ha
  rcases t.known hk hp with ⟨j, hj⟩ | ⟨g, hg, hlt⟩
  · exact new.ne hj rfl
  · rcases t.tree.free.generation_of_allocate ha with hsame | ⟨hnew, -⟩
    · rw [hsame] at hg
      rw [Option.some.inj hg] at hlt
      exact absurd hlt (UInt32.lt_irrefl g)
    · rw [hnew] at hg
      cases hg

theorem Tended.create {kind : Kind} {name : String} (t : Tended n o)
    (hc : o.create p kind name = .ok (h, o')) : Tended n o' := by
  obtain ⟨hplace, halloc⟩ := create_eq_ok hc
  obtain ⟨-, -, j, hj, -⟩ := checkPlacement_eq_ok hplace
  obtain ⟨new, -⟩ := t.tree.free.allocate halloc
  have hgen := generation?_allocate t.tree.free halloc
  refine ⟨t.tree.create (t.parent_ne_of_allocate halloc) hc, fun {x k q} hk hq => ?_,
    fun {m g} hg => ?_⟩
  · rcases new.new_or_old hk with ⟨-, rfl⟩ | hk
    · exact Or.inl ⟨j, new.elsewhere (Option.some.inj hq ▸ hj)⟩
    · rcases t.known hk hq with ⟨k', hk'⟩ | ⟨g, hg, hlt⟩
      · exact Or.inl ⟨k', new.elsewhere hk'⟩
      · refine Or.inr ⟨g, ?_, hlt⟩
        rw [hgen]
        split
        · rename_i hqh
          rw [← hg, hqh]
          rcases t.tree.free.generation_of_allocate halloc with hsame | ⟨hnew, -⟩
          · exact hsame.symm
          · rw [hqh, hnew] at hg
            cases hg
        · exact hg
  · rw [hgen] at hg
    split at hg
    · obtain rfl := Option.some.inj hg
      rcases t.tree.free.generation_of_allocate halloc with hsame | ⟨-, hzero⟩
      · exact t.bounded hsame
      · rw [hzero]
        exact Nat.zero_le n
    · exact t.bounded hg

/-! ### Releasing items -/

/-- Live items with parents that are nobody's children. -/
structure Detached (o : Outline) (l : List Handle) : Prop where
  live : ∀ h ∈ l, ∃ i p, o.get? h = some i ∧ i.parent = some p
  nodup : l.Nodup
  unlisted : ∀ h ∈ l, ∀ p j, o.get? p = some j → h ∉ j.children

/-- Without an item that is nobody's child, its children are detached. -/
theorem Detached.release (d : s.Detached (h :: pending)) (w : s.WellFormed) (hi : s.get? h = some i)
    (hget : ∀ x, s'.get? x = if x = h then none else s.get? x) :
    s'.Detached (i.children.reverse ++ pending) := by
  have old : ∀ {x k}, s'.get? x = some k → x ≠ h ∧ s.get? x = some k := by
    intro x k hk
    rw [hget] at hk
    split at hk
    · cases hk
    · exact ⟨‹_›, hk⟩
  obtain ⟨hnot, hnd⟩ := List.nodup_cons.mp d.nodup
  refine ⟨fun c hc => ?_, List.nodup_append.mpr ⟨?_, hnd, ?_⟩, fun c hc p j hj hmem => ?_⟩
  · rcases List.mem_append.mp hc with hc | hc
    · have hc := List.mem_reverse.mp hc
      obtain ⟨k, hk, hp⟩ := w.child hi hc
      have hch : c ≠ h := by
        rintro rfl
        exact d.unlisted c List.mem_cons_self c i hi hc
      exact ⟨k, h, by rw [hget, if_neg hch, hk], hp⟩
    · obtain ⟨k, p, hk, hp⟩ := d.live c (List.mem_cons_of_mem _ hc)
      have hch : c ≠ h := by
        rintro rfl
        exact hnot hc
      exact ⟨k, p, by rw [hget, if_neg hch, hk], hp⟩
  · exact List.nodup_reverse.mpr (w.nodup hi)
  · rintro c hc q hq rfl
    exact d.unlisted c (List.mem_cons_of_mem _ hq) h i hi (List.mem_reverse.mp hc)
  · obtain ⟨hph, hj⟩ := old hj
    rcases List.mem_append.mp hc with hc | hc
    · obtain ⟨k, hk, hkh⟩ := w.child hi (List.mem_reverse.mp hc)
      obtain ⟨k', hk', hkp⟩ := w.child hj hmem
      rw [hk] at hk'
      rw [← Option.some.inj hk', hkh] at hkp
      exact hph (Option.some.inj hkp).symm
    · exact d.unlisted c (List.mem_cons_of_mem _ hc) p j hj hmem

/-- Releasing an item that is nobody's child leaves the tree in order. -/
theorem WellFormed.release (w : s.WellFormed) (d : s.Detached (h :: pending))
    (hget : ∀ x, s'.get? x = if x = h then none else s.get? x) (hfree : s'.FreeExact) :
    s'.WellFormed := by
  obtain ⟨i, p, hi, hp⟩ := d.live h List.mem_cons_self
  refine w.drop (· = h) (fun hr => ?_) (fun hx => by rw [hget, if_pos hx])
    (fun hx => by rw [hget, if_neg hx]) hfree fun hm _ hc hch => ?_
  · obtain ⟨r, hroot, -, hnone⟩ := w.root
    rw [hr, hi] at hroot
    rw [Option.some.inj hroot, hnone] at hp
    cases hp
  · exact d.unlisted h List.mem_cons_self _ _ hm (hch ▸ hc)

theorem WellFormed.detached (w : o.WellFormed) (hi : o.get? h = some i) (hp : i.parent = some p)
    (hj : o.get? p = some j) :
    (o.set p { j with children := j.children.erase h }).Detached [h] := by
  have hstem : AgreeOn Item.stem o (o.set p { j with children := j.children.erase h }) :=
    .set hj rfl
  obtain ⟨i₁, hi₁, hstem₁⟩ := hstem.get?_eq_some hi
  have hp₁ : i₁.parent = some p := (Item.stem_eq_iff.mp hstem₁).2.2.trans hp
  refine ⟨fun x hx => ?_, List.nodup_singleton h, fun x hx q m hm hmem => ?_⟩
  · rw [List.mem_singleton.mp hx]
    exact ⟨i₁, p, hi₁, hp₁⟩
  · rw [List.mem_singleton.mp hx] at hmem
    obtain ⟨k, hk, hkq⟩ := (w.detach hj).child hm hmem
    rw [hi₁] at hk
    rw [← Option.some.inj hk, hp₁] at hkq
    rw [← Option.some.inj hkq, get?_set_self hj] at hm
    rw [← Option.some.inj hm] at hmem
    exact (w.nodup hj).not_mem_erase hmem

/-- Items are released one after another, and after each the tree is in order. -/
inductive Releases : Outline → Outline → Prop
  | none (s : Outline) : Releases s s
  | step {s s₁ s' : Outline} {h : Handle} {i : Item} : s.get? h = some i →
      s.release h = .ok (i, s₁) → s₁.WellFormed → Releases s₁ s' → Releases s s'

theorem Releases.tree (q : Releases s s') (w : s.WellFormed) : s'.WellFormed := by
  induction q with
  | none s => exact w
  | step _ _ w₁ _ ih => exact ih w₁

theorem Releases.get?_eq_some (q : Releases s s') (w : s.WellFormed) (hi : s'.get? h = some i) :
    s.get? h = some i := by
  induction q with
  | none s => exact hi
  | step hk hrel w₁ _ ih =>
      obtain ⟨hget, -⟩ := w.free.released hk hrel
      have hi₁ := ih w₁ hi
      rw [hget] at hi₁
      split at hi₁
      · cases hi₁
      · exact hi₁

/-- When the pending items are nobody's children, the tree is in order after each of their releases. -/
theorem Drains.releases (q : Drains pending gone s s') (w : s.WellFormed) (d : s.Detached pending) :
    Releases s s' := by
  induction q with
  | done s => exact .none s
  | next hi hrel _ ih =>
      obtain ⟨hget, -, -, hfree⟩ := w.free.released hi hrel
      have w₁ := w.release d hget hfree
      exact .step hi hrel w₁ (ih w₁ (d.release w hi hget))

/-- Removing an item is refused and changes nothing, or it takes the item out of the children of its
parent, releases it and what stands below it, and marks the parent. -/
theorem WellFormed.remove_cases {r : Except Violation Unit} (w : o.WellFormed)
    (hx : exec (Edit.remove h) o = (r, o')) : o' = o ∨ ∃ i j p o₂, o.get? h = some i ∧
      o.get? p = some j ∧ h ∈ j.children ∧
      Releases (o.set p { j with children := j.children.erase h }) o₂ ∧ o₂.get? h = none ∧
      exec (Edit.markDirty p) o₂ = (r, o') := by
  cases hdetach : o.detach h with
  | error v => exact Or.inl (Prod.mk.inj (hx.symm.trans (exec_remove_of_error hdetach))).2
  | ok a =>
      obtain ⟨p, o₁⟩ := a
      obtain ⟨gone, o₂, d, hperm, hrun⟩ := w.exec_remove_of_detach hdetach
      obtain ⟨i, j, hi, hp, hj, hmem, rfl⟩ := detach_eq_ok hdetach
      have w₁ : (o.set p { j with children := j.children.erase h }).WellFormed := w.detach hj
      refine Or.inr ⟨i, j, p, o₂, hi, hj, hmem, d.releases w₁ (w.detached hi hp hj), ?_,
        hrun.symm.trans hx⟩
      rw [(d.left w₁.free).2.2, if_pos (hperm.mem_iff.mpr (w.self_mem_family hi))]

/-- One release, of an item whose slot is not beyond generation `n`. -/
theorem Tended.release (t : Tended (n + 1) s) (hn : n + 1 < 2 ^ 32) (hi : s.get? h = some i)
    (hh : h.generation.toNat ≤ n) (hr : s.release h = .ok (i, s')) (w : s'.WellFormed) :
    Tended (n + 1) s' := by
  obtain ⟨hget, -⟩ := t.tree.free.released hi hr
  have hgen := generation?_release hr
  have hself : s.generation? h.index = some h.generation := generation?_of_get? hi
  have hnext : (h.generation + 1).toNat = h.generation.toNat + 1 := by
    rw [UInt32.toNat_add]
    exact Nat.mod_eq_of_lt (by simpa using by omega)
  refine ⟨w, fun {x k q} hk hq => ?_, fun {m g} hg => ?_⟩
  · have hk₀ : s.get? x = some k := by
      rw [hget] at hk
      split at hk
      · cases hk
      · exact hk
    rcases t.known hk₀ hq with ⟨j, hj⟩ | hpast
    · by_cases hqh : q = h
      · exact Or.inr (past_of_release hi hr hh hn (Or.inl hqh))
      · exact Or.inl ⟨j, by rw [hget, if_neg hqh, hj]⟩
    · exact Or.inr (past_of_release hi hr hh hn (Or.inr hpast))
  · rw [hgen] at hg
    split at hg
    · rename_i hm
      rw [hm, hself] at hg
      obtain rfl := Option.some.inj hg
      show (h.generation + 1).toNat ≤ n + 1
      omega
    · exact t.bounded hg

/-- The live handles of an outline. -/
def live (o : Outline) : List Handle :=
  (List.range o.slots.size).filterMap fun index =>
    o.slots[index]?.bind fun slot => slot.item.map fun _ => ⟨index, slot.generation⟩

/-- How many of the live handles of an outline lead nowhere in another. -/
def released (o o' : Outline) : Nat := (o.live.filter fun h => !o'.contains h).length

theorem mem_live : h ∈ o.live ↔ ∃ i, o.get? h = some i := by
  simp only [live, List.mem_filterMap, List.mem_range, Option.bind_eq_some_iff,
    Option.map_eq_some_iff, get?_eq_some_iff]
  constructor
  · rintro ⟨index, -, ⟨g, _⟩, hs, i, rfl, rfl⟩
    exact ⟨i, hs⟩
  · rintro ⟨i, hs⟩
    exact ⟨h.index, (Array.getElem?_eq_some_iff.mp hs).1, _, hs, i, rfl, rfl⟩

theorem released_pos (hi : o.get? h = some i) (hgone : o'.get? h = none) : 0 < o.released o' := by
  refine List.length_pos_of_mem (List.mem_filter.mpr ⟨mem_live.mpr ⟨i, hi⟩, ?_⟩)
  rw [contains, hgone]
  rfl

/-- Releasing items does not come to generation `n + 1` of a slot twice. -/
theorem Tended.releases (t : Tended (n + 1) s) (hn : n + 1 < 2 ^ 32)
    (live : ∀ {h i}, s.get? h = some i → h.generation.toNat ≤ n) (q : Releases s s') :
    Tended (n + 1) s' := by
  induction q with
  | none s => exact t
  | @step s s₁ _ h i hi hrel w₁ _ ih =>
      have first : Releases s s₁ := .step hi hrel w₁ (.none s₁)
      exact ih (t.release hn hi (live hi) hrel w₁) fun hk => live (first.get?_eq_some t.tree hk)

/-- Removing an item counts those that are released. -/
theorem Tended.remove {r : Except Violation Unit} (t : Tended n o)
    (hx : exec (Edit.remove h) o = (r, o')) (hn : n + o.released o' < 2 ^ 32) :
    Tended (n + o.released o') o' := by
  rcases t.tree.remove_cases hx with rfl | ⟨i, j, p, o₂, hi, hj, -, q, hgone, hmark⟩
  · exact t.mono (Nat.le_add_right _ _)
  · have a := Edit.markDirty_alike p hmark
    have hnone : o'.get? h = none := by
      have hmap := a.agree.get h
      rw [hgone] at hmap
      exact Option.map_eq_none_iff.mp hmap
    have hle : n + 1 ≤ n + o.released o' := Nat.add_le_add_left (released_pos hi hnone) n
    have t₁ := t.setChildren hj (t.tree.detach (h := h) hj)
    have t₂ := (t₁.mono (Nat.le_succ n)).releases (Nat.lt_of_le_of_lt hle hn)
      (fun hk => t₁.bounded (generation?_of_get? hk)) q
    exact (t₂.alike a).mono hle

end Outline

end PackageOutline
