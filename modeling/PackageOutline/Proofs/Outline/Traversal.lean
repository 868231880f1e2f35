import PackageOutline.Proofs.Outline.Calls

/-! # Walks on every run

Callers may leave items unattached and slots are used again, yet the walk from any live item ends and
is the pre-order of the tree: each step takes one item off the families of those that are pending
(`WellFormed.walkPending_eq`), and a family holds what its item leads to, each item once.

* `WellFormed.walk_children`: the walk from an item is made of the walks from its children, one level
  deeper.
* `WellFormed.itemCount_eq`: an item is listed by the walk from the root, or the root does not lead to
  it. -/

namespace PackageOutline

namespace Outline

variable {o : Outline} {h x : Handle} {i : Item}

/-! ### The recursion -/

/-- One level deeper. -/
def deeper (q : Handle × Nat) : Handle × Nat := (q.1, q.2 + 1)

theorem preorder_deeper (o : Outline) (n depth : Nat) (h : Handle) :
    o.preorder n (depth + 1) h = (o.preorder n depth h).map deeper := by
  induction n generalizing h depth with
  | zero => rfl
  | succ n ih =>
      simp only [preorder, List.map_cons, List.map_flatMap]
      congr 1
      exact List.flatMap_congr fun c _ => ih (depth + 1) c

/-- The walk from an item ends, and is made of the walks from its children one level deeper. -/
theorem WellFormed.walk_children (w : o.WellFormed) (hi : o.get? x = some i) :
    ∃ listed parts, o.walk x = .ok listed ∧
      (∀ steps, listed.length ≤ steps → o.walkPending steps [(x, 0)] = .ok listed) ∧
      i.children.mapM o.walk = .ok parts ∧ listed = (x, 0) :: parts.flatten.map deeper := by
  refine ⟨o.preorder o.slots.size 0 x, i.children.map (o.preorder o.slots.size 0), w.walk_eq hi,
    fun steps hs => ?_, ?_, ?_⟩
  · have hone : ([(x, 0)] : List (Handle × Nat)).flatMap (fun q => o.family q.1) = o.family x := by
      simp
    rw [w.walkPending_eq (by simpa using ⟨i, hi⟩)]
    · simp
    · rw [hone, family, List.length_map]
      exact hs
  · have hpure : i.children.mapM (fun c => (.ok (o.preorder o.slots.size 0 c) :
        Except Violation (List (Handle × Nat)))) =
        .ok (i.children.map (o.preorder o.slots.size 0)) := List.mapM_pure
    rw [← hpure]
    refine mapM_congr fun c hc => ?_
    obtain ⟨k, hk, -⟩ := w.child hi hc
    exact w.walk_eq hk
  · rw [w.preorder_eq hi, ← List.flatMap_def, List.map_flatMap]
    congr 1
    exact List.flatMap_congr fun c _ => preorder_deeper o o.slots.size 0 c

/-! ### The number of items -/

/-- The items are those that the walk from the root lists and those that the root does not lead
to. -/
theorem WellFormed.itemCount_eq (w : o.WellFormed) : ∃ detached : List Handle, detached.Nodup ∧
    (∀ h, h ∈ detached ↔ o.contains h = true ∧ ¬ o.Reachable h) ∧
      o.itemCount = (o.family Outline.root).length + detached.length := by
  obtain ⟨r, hr, -⟩ := w.root
  have hreach : ∀ {h}, h ∈ o.family Outline.root ↔ o.Reachable h :=
    (w.mem_family_iff_leads hr).trans leads_root_iff
  have hlive : ∀ {h}, h ∈ o.live ↔ o.contains h = true := mem_live.trans Option.isSome_iff_exists.symm
  have hdetached : ∀ h, h ∈ o.live.filter (· ∉ o.family Outline.root) ↔
      o.contains h = true ∧ ¬ o.Reachable h := by
    intro h
    rw [List.mem_filter, hlive, decide_eq_true_iff, hreach]
  have hperm : o.live.Perm (o.family Outline.root ++ o.live.filter (· ∉ o.family Outline.root)) := by
    refine (List.perm_ext_iff_of_nodup o.nodup_live (List.nodup_append.mpr ⟨w.nodup_family hr,
      o.nodup_live.filter _, ?_⟩)).mpr fun h => ?_
    · rintro a ha b hb rfl
      exact of_decide_eq_true (List.mem_filter.mp hb).2 ha
    · rw [List.mem_append, List.mem_filter, decide_eq_true_iff]
      by_cases hf : h ∈ o.family Outline.root
      · exact iff_of_true (mem_live.mpr (w.live_of_mem_family hr hf)) (Or.inl hf)
      · simp [hf]
  refine ⟨_, o.nodup_live.filter _, hdetached, ?_⟩
  rw [w.handles_inOrder.count, hperm.length_eq, List.length_append]

end Outline

open Outline

/-- Whatever was called before: the walk from a live item ends without being refused, as soon as it may
take as many steps as it lists items.  It lists the item and then the walks from its children, one
level deeper; no item twice, and all that the item leads to.  The number of items is that of the walk
from the root and of the live items that the root does not lead to. -/
theorem CallRun.walk_is_preorder {may : Outline → Call → Prop} {n : Nat} {W : Workspace}
    (run : CallRun may n W) (hn : n < 2 ^ 32) :
    (∀ x i, W.outline.get? x = some i → ∃ listed parts, W.outline.walk x = .ok listed ∧
      (∀ steps, listed.length ≤ steps → W.outline.walkPending steps [(x, 0)] = .ok listed) ∧
      i.children.mapM W.outline.walk = .ok parts ∧
      listed = (x, 0) :: parts.flatten.map deeper ∧ (listed.map Prod.fst).Nodup ∧
      ∀ y, y ∈ listed.map Prod.fst ↔ W.outline.Leads x y) ∧
    ∃ (listed : List (Handle × Nat)) (detached : List Handle),
      W.outline.walk root = .ok listed ∧ detached.Nodup ∧
      (∀ h, h ∈ detached ↔ W.outline.contains h = true ∧ ¬ W.outline.Reachable h) ∧
      W.outline.itemCount = listed.length + detached.length := by
  have w := (run.upheld (Tended.upheld may) hn).tree
  refine ⟨fun x i hi => ?_, ?_⟩
  · obtain ⟨listed, parts, hwalk, hsteps, hparts, hlisted⟩ := w.walk_children hi
    obtain rfl := Except.ok.inj (hwalk.symm.trans (w.walk_eq hi))
    exact ⟨_, parts, hwalk, hsteps, hparts, hlisted, w.nodup_family hi,
      fun y => w.mem_family_iff_leads hi⟩
  · obtain ⟨detached, hnodup, hmem, hcount⟩ := w.itemCount_eq
    obtain ⟨r, hr, -⟩ := w.root
    refine ⟨_, detached, w.walk_eq hr, hnodup, hmem, ?_⟩
    rw [hcount, family, List.length_map]

/-- A folder was removed before a file made for it was attached, and its slot is used again for a
folder with a file. -/
theorem CallRun.walk_is_preorder_of_reused_slot : ∃ (n : Nat) (W : Workspace) (i : Item)
    (parts : List (List (Handle × Nat))) (detached : List Handle),
    CallRun (fun _ _ => True) n W ∧ n < 2 ^ 32 ∧ W.outline.get? ⟨1, 0⟩ = some i ∧
    W.outline.walk ⟨1, 0⟩ = .ok [(⟨1, 0⟩, 0), (⟨2, 1⟩, 1), (⟨4, 0⟩, 2)] ∧
    i.children.mapM W.outline.walk = .ok parts ∧
    [(⟨1, 0⟩, 0), (⟨2, 1⟩, 1), (⟨4, 0⟩, 2)] = (⟨1, 0⟩, 0) :: parts.flatten.map deeper ∧
    (∀ y, y ∈ [(⟨1, 0⟩ : Handle), ⟨2, 1⟩, ⟨4, 0⟩] ↔ W.outline.Leads ⟨1, 0⟩ y) ∧
    (∀ h, h ∈ detached ↔ W.outline.contains h = true ∧ ¬ W.outline.Reachable h) ∧
    W.outline.itemCount = 5 ∧ detached.length = 1 := by
  obtain ⟨W, run, hlive, hcount, hwalk, hlength⟩ := CallRun.exists_of_play (fun _ _ => True) "P"
    [.add Outline.root .group "Package", .add ⟨1, 0⟩ .folder "d", .create ⟨2, 0⟩ .file "x",
      .remove ⟨2, 0⟩, .add ⟨1, 0⟩ .folder "e", .add ⟨2, 1⟩ .file "a", .insert ⟨2, 0⟩ 0 ⟨3, 0⟩]
    1 (fun W => W.outline.contains ⟨1, 0⟩ = true ∧ W.outline.itemCount = 5 ∧
      (W.outline.walk ⟨1, 0⟩).toOption = some [(⟨1, 0⟩, 0), (⟨2, 1⟩, 1), (⟨4, 0⟩, 2)] ∧
      ((W.outline.walk Outline.root).toOption.map List.length) = some 4) (by decide +kernel)
  have hless : 1 < 2 ^ 32 := by decide
  obtain ⟨walks, listed, detached, hroot, -, hdetached, htotal⟩ := run.walk_is_preorder hless
  obtain ⟨i, hi⟩ := Option.isSome_iff_exists.mp hlive
  obtain ⟨below, parts, hbelow, -, hparts, heq, -, hleads⟩ := walks ⟨1, 0⟩ i hi
  obtain rfl := Except.ok.inj (hbelow.symm.trans (toOption_eq_some.mp hwalk))
  obtain ⟨listed', hlisted', hfour⟩ := Option.map_eq_some_iff.mp hlength
  obtain rfl := Except.ok.inj (hroot.symm.trans (toOption_eq_some.mp hlisted'))
  exact ⟨1, W, i, parts, detached, run, hless, hi, hbelow, hparts, heq, hleads, hdetached, hcount,
    by omega⟩

end PackageOutline
