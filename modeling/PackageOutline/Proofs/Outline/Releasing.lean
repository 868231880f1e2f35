import PackageOutline.Proofs.Outline.AllOrNothing
import PackageOutline.Proofs.Outline.Calls

/-! # What a removal releases

`Outline.Drains` is the loop of a removal: each item is there when its turn comes, so no slot is met
that was released already.

* `Outline.Vacated`: what such a loop does to slots, all releases taken together
  (`Drains.vacated`).
* `Outline.Uprooted`: what an accepted removal comes to.  The subtree is gone, nothing else is, and of
  what is left only the parent has other children and only marks above it are new
  (`WellFormed.uprooted_of_detach`). -/

namespace PackageOutline

namespace Outline

variable {o o₁ o' s s' : Outline} {h p x y : Handle} {i j : Item} {pending gone l : List Handle}

/-! ### The loop -/

theorem release_free (hr : s.release h = .ok (i, s')) :
    s'.free = h.index :: s.free ∧ s'.slots.size = s.slots.size := by
  rw [release_eq_ok hr]
  exact ⟨rfl, size_vacate s h⟩

theorem Drains.live (d : Drains pending gone s s') (e : s.FreeExact) :
    ∀ x ∈ gone, ∃ i, s.get? x = some i := by
  induction d with
  | done s => exact fun x hx => absurd hx List.not_mem_nil
  | @next h i pending gone s s₁ s' hi hr _ ih =>
      obtain ⟨hget, -, -, e₁⟩ := e.released hi hr
      intro x hx
      rcases List.mem_cons.mp hx with rfl | hx
      · exact ⟨i, hi⟩
      · obtain ⟨k, hk⟩ := ih e₁ x hx
        rw [hget] at hk
        split at hk
        · cases hk
        · exact ⟨k, hk⟩

theorem Drains.index_not_mem (d : Drains pending gone s' o') (e : s.FreeExact)
    (hi : s.get? h = some i) (hr : s.release h = .ok (i, s')) : h.index ∉ gone.map Handle.index := by
  obtain ⟨hget, -, -, e'⟩ := e.released hi hr
  intro hmem
  obtain ⟨x, hx, hindex⟩ := List.mem_map.mp hmem
  obtain ⟨k, hk⟩ := d.live e' x hx
  rw [hget] at hk
  split at hk
  · cases hk
  · exact ‹x ≠ h› (eq_of_index_eq hk hi hindex)

/-- No slot is released twice. -/
theorem Drains.nodup (d : Drains pending gone s s') (e : s.FreeExact) :
    (gone.map Handle.index).Nodup := by
  induction d with
  | done s => exact List.nodup_nil
  | @next h i pending gone s s₁ s' hi hr d ih =>
      obtain ⟨-, -, -, e₁⟩ := e.released hi hr
      exact List.nodup_cons.mpr ⟨d.index_not_mem e hi hr, ih e₁⟩

theorem Drains.free_eq (d : Drains pending gone s s') :
    s'.free = gone.reverse.map Handle.index ++ s.free ∧ s'.slots.size = s.slots.size := by
  induction d with
  | done s => exact ⟨rfl, rfl⟩
  | next _ hr _ ih =>
      obtain ⟨hfree, hsize⟩ := release_free hr
      rw [ih.1, ih.2, hfree, hsize]
      exact ⟨by simp, rfl⟩

/-- The slots released go on by one generation. -/
theorem Drains.generation?_eq (d : Drains pending gone s s') (e : s.FreeExact) (n : Nat) :
    s'.generation? n = if n ∈ gone.map Handle.index then (s.generation? n).map (· + 1)
      else s.generation? n := by
  induction d with
  | done s => simp
  | @next h i pending gone s s₁ s' hi hr d ih =>
      have hnot := d.index_not_mem e hi hr
      obtain ⟨-, -, -, e₁⟩ := e.released hi hr
      rw [ih e₁, generation?_release hr, List.map_cons]
      by_cases hn : n = h.index
      · rw [hn, if_neg hnot, if_pos rfl, if_pos List.mem_cons_self]
      · simp only [hn, ↓reduceIte, List.mem_cons, false_or]

theorem Drains.itemCount_eq (d : Drains pending gone s s') (e : s.FreeExact) :
    s'.itemCount + gone.length = s.itemCount := by
  obtain ⟨hfree, hsize⟩ := d.free_eq
  have hslots := (d.left e).1.length_live
  rw [hfree, hsize] at hslots
  unfold itemCount
  rw [hfree, hsize]
  simp only [List.length_append, List.length_map, List.length_reverse] at hslots ⊢
  omega

/-! ### Slots that are vacated -/

/-- The items of the handles `gone` were released, each once, and no other item came or went. -/
structure Vacated (gone : List Handle) (o o' : Outline) : Prop where
  live : ∀ h ∈ gone, o.contains h = true
  now : ∀ h, o'.contains h = true ↔ o.contains h = true ∧ h ∉ gone
  /-- Every slot is released once at most: it goes on by one generation and is free. -/
  once : (gone.map Handle.index).Nodup
  generations : ∀ n, o'.generation? n =
    if n ∈ gone.map Handle.index then (o.generation? n).map (· + 1) else o.generation? n
  free : o'.free.Perm (gone.map Handle.index ++ o.free)
  count : o'.itemCount + gone.length = o.itemCount

theorem Drains.vacated (d : Drains pending gone s s') (e : s.FreeExact) : Vacated gone s s' where
  live h hh := Option.isSome_iff_exists.mpr (d.live e h hh)
  now h := by
    rw [contains, (d.left e).2.2]
    by_cases hh : h ∈ gone
    · simp [hh]
    · simp [hh, contains]
  once := d.nodup e
  generations := d.generation?_eq e
  free := by
    rw [d.free_eq.1]
    exact ((List.reverse_perm gone).map _).append_right _
  count := d.itemCount_eq e

theorem Vacated.perm {gone' : List Handle} (v : Vacated gone o o') (hg : gone.Perm gone') :
    Vacated gone' o o' where
  live h hh := v.live h (hg.mem_iff.mpr hh)
  now h := by rw [v.now, hg.mem_iff]
  once := (hg.map _).nodup_iff.mp v.once
  generations n := by rw [v.generations, if_congr (hg.map _).mem_iff rfl rfl]
  free := v.free.trans ((hg.map _).append_right _)
  count := by rw [← hg.length_eq]; exact v.count

section
variable {β γ : Type} {f : Item → β} {g : Item → γ}

theorem AgreeOn.contains_eq (a : AgreeOn f o o') (h : Handle) : o'.contains h = o.contains h := by
  have hm := congrArg Option.isSome (a.get h)
  rwa [Option.isSome_map, Option.isSome_map] at hm

theorem AgreeOn.itemCount_eq (a : AgreeOn f o o') : o'.itemCount = o.itemCount := by
  unfold itemCount
  rw [a.size, a.free]

theorem Vacated.between (before : Alike f o s) (v : Vacated gone s s') (behind : Alike g s' o') :
    Vacated gone o o' where
  live h hh := by rw [← before.agree.contains_eq]; exact v.live h hh
  now h := by rw [behind.agree.contains_eq, v.now, before.agree.contains_eq]
  once := v.once
  generations n := by rw [behind.generations, v.generations, before.generations]
  free := by rw [behind.agree.free, ← before.agree.free]; exact v.free
  count := by rw [behind.agree.itemCount_eq, ← before.agree.itemCount_eq]; exact v.count

end

/-! ### Subtrees that are uprooted -/

/-- The subtree at `x`, of the items `gone`, was taken from the children of `p` and released. -/
structure Uprooted (x p : Handle) (gone : List Handle) (o o' : Outline) : Prop where
  vacated : Vacated gone o o'
  /-- The other children of the parent keep their order. -/
  parent : ∃ i j j', o.get? x = some i ∧ i.parent = some p ∧ o.get? p = some j ∧ x ∈ j.children ∧
    o'.get? p = some j' ∧ j'.children = j.children.filter (· ≠ x)
  /-- The other items keep all but marks and memory, and only those above the subtree are marked. -/
  rest : ∀ y i, o.get? y = some i → y ∉ gone → ∃ i', o'.get? y = some i' ∧ i'.kind = i.kind ∧
    i'.name = i.name ∧ i'.parent = i.parent ∧ i'.contents = i.contents ∧
    (y ≠ p → i'.children = i.children) ∧ (o.Below y p → i'.dirty = true) ∧
    (¬ o.Below y p → i' = i)
  document : o'.document = o.document

theorem WellFormed.get?_uprooted {o₂ : Outline} (w : o.WellFormed) (hj : o.get? p = some j)
    (d : Drains [x] gone (o.set p { j with children := j.children.erase x }) o₂) (hl : o.Line p l)
    (m : Marked l o₂ o') (hi : o.get? y = some i) (hy : y ∉ gone) :
    ∃ i', o'.get? y = some i' ∧
      i'.bare = ({ i with children := if y = p then j.children.erase x else i.children } : Item).bare ∧
      (o.Below y p → i'.dirty = true) ∧ (¬ o.Below y p → i' = i) := by
  have hag : AgreeOn Item.stem o (o.set p { j with children := j.children.erase x }) := .set hj rfl
  have hget := (d.left (hag.freeExact w.free)).2.2 y
  rw [if_neg hy, get?_set hj] at hget
  by_cases hyp : y = p
  · subst hyp
    rw [hj] at hi
    obtain rfl := Option.some.inj hi
    rw [if_pos rfl] at hget
    obtain ⟨i', hi', hbare⟩ := m.tree.agree.get?_eq_some hget
    refine ⟨i', hi', by rw [hbare, if_pos rfl], fun _ => m.on hl.self_mem hi', fun hn => ?_⟩
    exact absurd .self hn
  · rw [if_neg hyp, hi] at hget
    rw [if_neg hyp]
    obtain ⟨i', hi', hbare⟩ := m.tree.agree.get?_eq_some hget
    refine ⟨i', hi', hbare, fun hb => m.on (hl.mem_iff.mpr hb) hi', fun hn => ?_⟩
    rw [m.off (fun hmem => hn (hl.mem_iff.mp hmem)), hget] at hi'
    exact (Option.some.inj hi').symm

/-- What can be taken out of the children of its parent is uprooted, and the loop that releases it
meets no slot that is empty. -/
theorem WellFormed.uprooted_of_detach (w : o.WellFormed) (hd : o.detach x = .ok (p, o₁)) :
    ∃ order o₂ o', Drains [x] order o₁ o₂ ∧ order.Perm (o.family x) ∧
      exec (Edit.remove x) o = (.ok (), o') ∧ Uprooted x p (o.family x) o o' := by
  obtain ⟨order, o₂, o', l, d, hperm, -, -, hl, m, hmark, hrun⟩ := w.remove_of_detach hd
  refine ⟨order, o₂, o', d, hperm, hrun, ?_⟩
  obtain ⟨i, j, hi, hp, hj, hmem, rfl⟩ := detach_eq_ok hd
  have hset : Alike Item.stem o (o.set p { j with children := j.children.erase x }) := .set hj rfl
  have e₁ := hset.agree.freeExact w.free
  have left : ∀ {y k}, o.get? y = some k → y ∉ o.family x → _ := fun hk hy =>
    w.get?_uprooted hj d hl m hk (hperm.mem_iff.not.mpr hy)
  constructor
  case vacated => exact ((d.vacated e₁).perm hperm).between hset (Edit.markDirty_alike p hmark)
  case parent =>
    have hpf : p ∉ o.family x := fun hpf => w.not_below_parent hj hmem (w.below_of_mem_family hi hpf)
    obtain ⟨j', hj', hbare, -⟩ := left hj hpf
    obtain ⟨hframe, -⟩ := Item.bare_eq_iff.mp hbare
    refine ⟨i, j, j', hi, hp, hj, hmem, hj', ?_⟩
    rw [(Item.frame_eq_iff.mp hframe).2.2.2, if_pos rfl, (w.nodup hj).erase_eq_filter]
    exact List.filter_congr fun c _ => by by_cases hc : c = x <;> simp [hc]
  case rest =>
    intro y k hk hy
    obtain ⟨k', hk', hbare, habove, helse⟩ := left hk hy
    obtain ⟨hframe, hcontents⟩ := Item.bare_eq_iff.mp hbare
    obtain ⟨hkind, hname, hparent, hchildren⟩ := Item.frame_eq_iff.mp hframe
    exact ⟨k', hk', hkind, hname, hparent, hcontents, fun hyp => hchildren.trans (if_neg hyp), habove,
      helse⟩
  case document => exact m.tree.document.trans (d.left e₁).2.1

end Outline

open Outline

/-- Whatever was called before: a removal is refused before anything is done, and otherwise it takes
the item out of the children of its parent and releases exactly what the walk from it listed, each item
once.  The loop comes to an end after as many steps as it releases items, and each of them is there when
its turn comes. -/
theorem CallRun.removal_releases_subtree {may : Outline → Call → Prop} {n : Nat} {W : Workspace}
    (run : CallRun may n W) (hn : n < 2 ^ 32) (x : Handle) :
    (∀ v o', exec (Edit.remove x) W.outline = (.error v, o') →
      W.outline.detach x = .error v ∧ o' = W.outline) ∧
    ∀ o', exec (Edit.remove x) W.outline = (.ok (), o') → ∃ p o₁ o₂ order listed,
      W.outline.walk x = .ok listed ∧ W.outline.detach x = .ok (p, o₁) ∧
      order.Perm (listed.map Prod.fst) ∧ Drains [x] order o₁ o₂ ∧
      (∀ steps, order.length ≤ steps → exec (Edit.releasePending steps [x]) o₁ = (.ok (), o₂)) ∧
      Uprooted x p (listed.map Prod.fst) W.outline o' := by
  have w := (run.upheld (Tended.upheld may) hn).tree
  cases hd : W.outline.detach x with
  | error v =>
      have hrefused := exec_remove_of_error hd
      refine ⟨fun v' o' hx => ?_, fun o' hx => ?_⟩
      · obtain ⟨hv, ho⟩ := Prod.mk.inj (hrefused.symm.trans hx)
        exact ⟨congrArg _ (Except.error.inj hv), ho.symm⟩
      · cases (Prod.mk.inj (hrefused.symm.trans hx)).1
  | ok a =>
      obtain ⟨p, o₁⟩ := a
      obtain ⟨order, o₂, o', d, hperm, hrun, u⟩ := w.uprooted_of_detach hd
      refine ⟨fun v o'' hx => ?_, fun o'' hx => ?_⟩
      · cases (Prod.mk.inj (hrun.symm.trans hx)).1
      · obtain ⟨-, rfl⟩ := Prod.mk.inj (hrun.symm.trans hx)
        obtain ⟨i, j, hi, -⟩ := detach_eq_ok hd
        exact ⟨p, o₁, o₂, order, _, w.walk_eq hi, rfl, hperm, d, fun steps hs => d.exec hs, u⟩

/-- A folder is removed whose slot and whose file's slot were used before, and for which another file
was made that is not attached. -/
theorem CallRun.removal_releases_subtree_of_reused_slots : ∃ (n : Nat) (W : Workspace)
    (o' : Outline) (p : Handle), CallRun (fun _ _ => True) n W ∧ n < 2 ^ 32 ∧
    exec (Edit.remove ⟨3, 1⟩) W.outline = (.ok (), o') ∧
    W.outline.walk ⟨3, 1⟩ = .ok [(⟨3, 1⟩, 0), (⟨2, 1⟩, 1)] ∧
    Uprooted ⟨3, 1⟩ p [⟨3, 1⟩, ⟨2, 1⟩] W.outline o' ∧ o'.contains ⟨4, 0⟩ = true ∧
    (W.outline.get? ⟨4, 0⟩).map Item.parent = some (some ⟨3, 1⟩) := by
  obtain ⟨W, run, hok, hwalk, hlive, hparent⟩ := CallRun.exists_of_play (fun _ _ => True) "P"
    [.add Outline.root .group "Package", .add ⟨1, 0⟩ .folder "d", .add ⟨2, 0⟩ .file "a",
      .remove ⟨2, 0⟩, .add ⟨1, 0⟩ .folder "e", .add ⟨3, 1⟩ .file "b",
      .create ⟨3, 1⟩ .file "x"]
    2 (fun W => (exec (Edit.remove ⟨3, 1⟩) W.outline).1.isOk = true ∧
      (W.outline.walk ⟨3, 1⟩).toOption = some [(⟨3, 1⟩, 0), (⟨2, 1⟩, 1)] ∧
      W.outline.contains ⟨4, 0⟩ = true ∧
      (W.outline.get? ⟨4, 0⟩).map Item.parent = some (some ⟨3, 1⟩)) (by decide +kernel)
  have hless : 2 < 2 ^ 32 := by decide
  rcases hx : exec (Edit.remove ⟨3, 1⟩) W.outline with ⟨v | _, o'⟩
  · rw [hx] at hok
    cases hok
  · obtain ⟨p, o₁, o₂, order, listed, hlisted, -, -, -, -, u⟩ :=
      (run.removal_releases_subtree hless ⟨3, 1⟩).2 o' hx
    obtain rfl := Except.ok.inj (hlisted.symm.trans (toOption_eq_some.mp hwalk))
    exact ⟨2, W, o', p, run, hless, hx, hlisted, u, (u.vacated.now _).mpr ⟨hlive, by decide⟩, hparent⟩

end PackageOutline
