import PackageOutline.Proofs.Outline.Runs

/-! # Clean roots

When the root is only refreshed to be saved, and is marked again when writing its tree fails, a clean
root means that nothing is left to save: no item is dirty, and the document has the contents of every
file (`SavingRun.clean_root`).

The invariant is `Outline.Mirrored`.  An edit marks the root, computing images changes neither
contents nor the document, and a commit puts the contents of all files into the document. -/

namespace PackageOutline

/-- The workspaces that runs with saves lead to.  A save that is given a tree commits it
(`EditStep.save`) or marks the root; one that is given none does nothing more. -/
inductive SavingRun : Workspace → Prop
  | start {W : Workspace} : W.outline.Start → SavingRun W
  | step {W W' : Workspace} {s : EditStep} : SavingRun W →
      (∀ held, s ≠ .refresh held Outline.root) → s.Takes W W' → SavingRun W'
  | failed {W W' W'' : Workspace} {held : List SharedTree} {t : SharedTree}
      {r : Except Failure Unit} : SavingRun W →
      exec (Workspace.refresh held Outline.root) W = (.ok (some t), W') →
      exec (Workspace.edit (EditCall.markDirty Outline.root).edit) W' = (r, W'') → SavingRun W''
  | idle {W W' : Workspace} {held : List SharedTree} {r : Except Failure (Option SharedTree)} :
      SavingRun W → exec (Workspace.refresh held Outline.root) W = (r, W') →
      (∀ t, r ≠ .ok (some t)) → SavingRun W'

namespace Outline

variable {o o' : Outline} {h : Handle} {i : Item} {t : SharedTree}

/-- Unless the root is dirty, the document has the contents of every file. -/
def Mirrored (o : Outline) : Prop :=
  ∀ ⦃r⦄, o.get? root = some r → r.dirty = false → ∀ ⦃f i c⦄, o.get? f = some i → i.kind = .file →
    i.contents = some c → (o.document.bind (·.find? (o.diskPath f))).bind Tree.contents? = some c

theorem Mirrored.of_dirty (hr : ∃ r, o.get? root = some r ∧ r.dirty = true) : o.Mirrored := by
  intro r hroot hclean
  obtain ⟨r', hr', hd⟩ := hr
  rw [hroot] at hr'
  rw [Option.some.inj hr', hd] at hclean
  cases hclean

theorem Mirrored.sameTree (m : o.Mirrored) (s : o.Sound) (st : SameTree o o')
    (hroot : (o'.get? root).map Item.dirty = (o.get? root).map Item.dirty) : o'.Mirrored := by
  intro r hr hclean f i c hi hk hc
  obtain ⟨r₀, hr₀, -⟩ := st.agree.symm.get?_eq_some hr
  rw [hr, hr₀, Option.map_some, Option.map_some, hclean] at hroot
  obtain ⟨i₀, hi₀, hb⟩ := st.agree.symm.get?_eq_some hi
  obtain ⟨hf, hcontents⟩ := Item.bare_eq_iff.mp hb
  rw [st.document, st.diskPath s.tree s.attached hi₀]
  exact m hr₀ (Option.some.inj hroot).symm hi₀ ((Item.frame_eq_iff.mp hf).1.trans hk)
    (hcontents.trans hc)

/-- When the image of the root becomes the document, it has the contents of every file. -/
theorem Sound.mirrored_commit (s : o.Sound) (ht : o.plainImage root = .ok t.plain) :
    ({ o with document := some t } : Outline).Mirrored := by
  intro r _ _ f i c hi hk hc
  have hi₀ : o.get? f = some i := hi
  have ag : AgreeOn Item.stem o { o with document := some t } := ⟨rfl, rfl, fun _ => rfl⟩
  obtain ⟨l, hl⟩ := s.tree.exists_line s.attached hi₀
  have hdata : o.data f = some c := by
    unfold Outline.data
    rw [hi₀, Option.bind_some, hc]
  rw [s.tree.diskPath_of_stem (s.commit ht).tree hl fun x _ => ag.get x]
  exact s.tree.find?_of_data s.attached ht hi₀ hk hdata

theorem Start.mirrored (st : o.Start) : o.Mirrored := by
  intro r _ _ f i c hi _ hc
  cases st with
  | new package document =>
      rw [((fresh_new package document).idle hi).2.2] at hc
      cases hc
  | build hb =>
      rw [((Description.fresh_of_build hb).idle hi).2.2] at hc
      cases hc

theorem Sound.mark_root {W W' : Workspace} {r : Except Failure Unit} (s : W.outline.Sound)
    (hx : exec (Workspace.edit (EditCall.markDirty root).edit) W = (r, W')) :
    r = .ok () ∧ (EditStep.edit (.markDirty root)).Takes W W' ∧
      exec (Edit.markDirty root) W.outline = (.ok (), W'.outline) ∧
        SameTree W.outline W'.outline := by
  obtain ⟨i, hi, -, hp⟩ := s.tree.root
  obtain ⟨o', hrun, m⟩ := s.tree.exec_markDirty (.root hi hp)
  have hx' := Workspace.exec_of_edit hx
  rw [EditCall.edit, exec_adapt, hrun] at hx'
  obtain ⟨rfl, rfl⟩ := Prod.mk.inj hx'
  refine ⟨rfl, .edit (fun x hmem => ?_) hx fun v hv => (by cases hv), hrun, m.tree⟩
  rw [List.mem_singleton.mp hmem]
  exact .root

/-- A step that does not refresh the root keeps the promise. -/
theorem Mirrored.takes {W W' : Workspace} {s : EditStep} (m : W.outline.Mirrored)
    (so : W.outline.Sound) (hs : s.Takes W W') (hne : ∀ held, s ≠ .refresh held root) :
    W'.outline.Mirrored := by
  have so' := so.takes hs
  cases hs with
  | edit hlive hx hr =>
      rcases marks_of_edit (Workspace.exec_of_edit hx) hr with ho | ⟨h, o₁, hmark⟩
      · rw [ho]
        exact m
      · exact .of_dirty (so'.root_dirty hmark)
  | image hreach hx =>
      obtain ⟨i, hi⟩ := so.tree.live_of_reachable hreach
      have k := (Workspace.exec_image so hi hx).2
      exact m.sameTree so k.cleared.tree (k.cleared.off not_false)
  | @refresh _ _ h held _ hreach hx =>
      obtain ⟨i, hi⟩ := so.tree.live_of_reachable hreach
      have R := Workspace.exec_refresh so hi hx
      have hroot : ¬ W.outline.Below h root := by
        intro hb
        exact hne held (so.tree.eq_root_of_below hb ▸ rfl)
      exact m.sameTree so R.kept.cleared.tree (R.kept.cleared.off hroot)
  | save hx hcommit =>
      obtain ⟨so₁, ht, -⟩ := Workspace.refresh_root so hx
      obtain ⟨notices, hrun⟩ := Workspace.exec_commit _ _
      rw [hrun] at hcommit
      obtain ⟨-, rfl⟩ := Prod.mk.inj hcommit
      exact so₁.mirrored_commit ht

end Outline

open Outline

/-- All outlines on a run with saves are sound. -/
theorem SavingRun.sound {W : Workspace} (run : SavingRun W) : W.outline.Sound := by
  induction run with
  | start st => exact st.sound
  | step _ _ hs ih => exact ih.takes hs
  | failed _ hx hmark ih =>
      have so := (Workspace.refresh_root ih hx).1
      exact so.takes (so.mark_root hmark).2.1
  | idle _ hx _ ih =>
      obtain ⟨i, hi, -⟩ := ih.tree.root
      have R := Workspace.exec_refresh ih hi hx
      exact ih.kept R.kept R.closed

theorem SavingRun.mirrored {W : Workspace} (run : SavingRun W) : W.outline.Mirrored := by
  induction run with
  | start st => exact st.mirrored
  | step run hne hs ih => exact ih.takes run.sound hs hne
  | failed run hx hmark ih =>
      obtain ⟨-, htakes, hrun, -⟩ := (Workspace.refresh_root run.sound hx).1.mark_root hmark
      exact .of_dirty (((Workspace.refresh_root run.sound hx).1.takes htakes).root_dirty hrun)
  | idle run hx hnone ih =>
      rcases Workspace.refresh_root_none run.sound hx hnone with ⟨-, rfl, -⟩ | ⟨e, -, hroot⟩
      · exact ih
      · exact .of_dirty hroot

/-- When the root is clean, no item is dirty, and the document has a file with the contents of every
file that has contents, at its path. -/
theorem SavingRun.clean_root {W : Workspace} {r : Item} (run : SavingRun W)
    (hr : W.outline.get? Outline.root = some r) (hclean : r.dirty = false) :
    (∀ x i, W.outline.Reachable x → W.outline.get? x = some i → i.dirty = false) ∧
      ∀ f i c, W.outline.Reachable f → W.outline.get? f = some i → i.kind = .file →
        i.contents = some c → ∃ names t, W.outline.diskNames f = .ok names ∧
          W.outline.document.bind (·.find? names) = some t ∧ t.contents? = some c := by
  have so := run.sound
  refine ⟨fun x i _ hi => ?_, fun f i c _ hi hk hc => ?_⟩
  · cases hd : i.dirty with
    | false => rfl
    | true =>
        rw [so.closed.of_below (so.tree.below_root so.attached hi) hr hi hd] at hclean
        cases hclean
  · obtain ⟨l, hl⟩ := so.tree.exists_line so.attached hi
    obtain ⟨t, ht, htc⟩ := Option.bind_eq_some_iff.mp (run.mirrored hr hclean hi hk hc)
    exact ⟨_, t, so.tree.diskNames_eq_diskPath hl, ht, htc⟩

/-- A file that was changed, refreshed on its own, saved, renamed and saved again. -/
theorem SavingRun.clean_root_after_saves : ∃ (W : Workspace) (r : Item), SavingRun W ∧
    W.outline.get? Outline.root = some r ∧ r.dirty = false ∧
    ∃ names t, W.outline.diskNames ⟨3, 0⟩ = .ok names ∧
      W.outline.document.bind (·.find? names) = some t ∧ t.contents? = some [0x31] := by
  obtain ⟨W, hplay, hW⟩ := (Option.any_eq_true ..).mp (show (Workspace.play
    ⟨Outline.new "P", 0, []⟩ [.edit (.add Outline.root .group "Package"),
      .edit (.add ⟨1, 0⟩ .folder "d"), .edit (.add ⟨2, 0⟩ .file "a"),
      .edit (.setContents ⟨3, 0⟩ [0x31]), .refresh [] ⟨3, 0⟩, .save [],
      .edit (.rename ⟨2, 0⟩ "e"), .save []]).any (fun W =>
        (W.outline.get? Outline.root).any (!·.dirty) &&
        (W.outline.get? ⟨3, 0⟩).any fun f =>
          f.kind = .file && f.contents = some [0x31]) = true by decide +kernel)
  obtain ⟨hroot, hfile⟩ := (Bool.and_eq_true ..).mp hW
  obtain ⟨r, hr, hclean⟩ := (Option.any_eq_true ..).mp hroot
  obtain ⟨f, hf, hcontents⟩ := (Option.any_eq_true ..).mp hfile
  simp only [Bool.and_eq_true, decide_eq_true_eq] at hcontents
  have hd : r.dirty = false := by simpa using hclean
  have run : SavingRun W := Workspace.play_induction SavingRun.sound
    (fun hmem run hs => run.step (fun held h => by simp [h, Outline.root] at hmem) hs)
    (.start (.new "P" none)) hplay
  have reach : W.outline.Reachable ⟨3, 0⟩ := run.sound.tree.reachable run.sound.attached hf
  exact ⟨W, r, run, hr, hd,
    (run.clean_root hr hd).2 _ f _ reach hf hcontents.1 hcontents.2⟩

end PackageOutline
