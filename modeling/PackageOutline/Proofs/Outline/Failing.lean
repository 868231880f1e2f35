import PackageOutline.Proofs.Outline.Blind
import PackageOutline.Proofs.Outline.Inheriting

/-! # Refreshes that fail

A refresh that fails keeps everything but some marks (`Unharmed`): the tree, the contents and the
document are what they were, the item and all above it are dirty still, and where a mark was taken away,
all below is clean.  So it fails again in the same way.

After edits with failing refreshes between them (`Retried`) the next refresh gives just what it gives
when no refresh failed in between (`EditRun.failed_refresh_loses_nothing`): edits do not look at
marks, and they take none away (`EditCall.dirty`). -/

namespace PackageOutline

open Outline

variable {o o' : Outline} {W W' V V' : Workspace} {h x : Handle} {i j : Item}
  {held : List SharedTree} {e : Failure} {c : EditCall} {cs : List EditCall}

/-! ### Marks that edits leave -/

namespace Edit

/-- Whether what is dirty and stays is dirty still. -/
def KeepsDirty (o o' : Outline) : Prop :=
  ∀ ⦃x i j⦄, o.get? x = some i → i.dirty = true → o'.get? x = some j → j.dirty = true

theorem keepsDirty_of_inherits (q : Inherits (fun dirty _ => dirty = false) o o') :
    KeepsDirty o o' := by
  intro x i j hi hd hj
  by_contra hclean
  obtain ⟨k, hk, hkd⟩ := q hj (by simpa using hclean)
  rw [hi] at hk
  rw [← Option.some.inj hk, hd] at hkd
  cases hkd

theorem keepsDirty_of_create {α : Type} {p : Handle} {kind : Kind} {name : String}
    {f : Handle → Edit α} {r : Except Violation α} (free : o.FreeExact)
    (hf : ∀ h, Always (Inherits fun dirty _ => dirty = false) (f h))
    (hx : exec (create p kind name >>= f) o = (r, o')) : KeepsDirty o o' := by
  intro x i j hi hd hj
  rcases exec_changeWith_cases hx with ⟨v, -, rfl⟩ | ⟨h, o₁, hcreate, hrest⟩
  · rw [hi] at hj
    rw [← Option.some.inj hj, hd]
  · obtain ⟨g, -⟩ := free.allocate (create_eq_ok hcreate).2
    exact keepsDirty_of_inherits (hf h hrest) (g.elsewhere hi) hd hj

end Edit

/-- Edits take no marks away. -/
theorem EditCall.dirty {r : Except Failure Unit} (free : o.FreeExact)
    (hx : exec c.edit o = (r, o')) : Edit.KeepsDirty o o' := by
  have marked : ¬ (true = false) := Bool.noConfusion
  have quiet : ∀ {ε α : Type} {y : ExceptT ε (StateM Outline) α},
      Always (Inherits fun dirty _ => dirty = false) y → Edit.KeepsDirty o (exec y o).2 :=
    fun hy => Edit.keepsDirty_of_inherits (hy rfl)
  obtain rfl : (exec c.edit o).2 = o' := congrArg Prod.snd hx
  cases c with
  | add parent kind name =>
      show Edit.KeepsDirty o (exec (Edit.add parent kind name >>= fun _ => pure ()) o).2
      rw [exec_bind_pure_snd]
      exact Edit.keepsDirty_of_create free (fun h => (Edit.always_read _).bind fun _ =>
        (Edit.inherits_insert marked).bind fun _ => .pure h) rfl
  | insertNew parent kind name below index =>
      exact Edit.keepsDirty_of_create (f := Edit.insert below index) free
        (fun h => Edit.inherits_insert marked) rfl
  | setContents item contents => exact quiet (Edit.inherits_setContents marked)
  | markDirty item => exact quiet ((Edit.inherits_markDirty marked item).adapt _)
  | rename item name => exact quiet ((Edit.inherits_rename marked).adapt _)
  | remove item => exact quiet ((Edit.inherits_remove marked).adapt _)
  | move parent start stop => exact quiet ((Edit.inherits_move marked).adapt _)
  | reorder parent order => exact quiet ((Edit.inherits_reorder marked).adapt _)

/-! ### One failing refresh -/

/-- What a refresh of an item that fails leaves: the tree with its contents and the document, and all
marks but some below the item, each with all marks below it. -/
structure Unharmed (h : Handle) (o o' : Outline) : Prop where
  tree : SameTree o o'
  above : ∀ ⦃x⦄, o.Below x h → ∃ i, o'.get? x = some i ∧ i.dirty = true
  less : ∀ ⦃x j⦄, o'.get? x = some j → j.dirty = true → ∃ i, o.get? x = some i ∧ i.dirty = true
  cleared : ∀ ⦃x i j⦄, o.get? x = some i → i.dirty = true → o'.get? x = some j →
    j.dirty = false → o.Below h x ∧ x ≠ h ∧
      ∀ y k, o.Below x y → o'.get? y = some k → k.dirty = false
  closed : o'.DirtyClosed

theorem Outline.SameTree.below (st : SameTree o o') (hb : o.Below h x) : o'.Below h x :=
  st.frame.links.below hb

theorem Outline.Sound.unharmed (s : W.outline.Sound) (hi : W.outline.get? h = some i)
    (hx : exec (Workspace.refresh held h) W = (.error e, W')) : Unharmed h W.outline W'.outline := by
  have R := Workspace.exec_refresh s hi hx
  have st := R.kept.cleared.tree
  obtain ⟨j, hj, -⟩ := st.agree.get?_eq_some hi
  have hself : j.dirty = true := R.failed rfl hj
  refine ⟨st, fun x hb => ?_, fun x k => R.kept.cleared.less, fun x k m hk hd hm hclean => ?_,
    R.closed⟩
  · obtain ⟨l, hl⟩ := s.tree.exists_line s.attached hi
    obtain ⟨k, hk⟩ := hl.live x (hl.mem_iff.mpr hb)
    obtain ⟨m, hm, -⟩ := st.agree.get?_eq_some hk
    exact ⟨m, hm, R.closed.of_below (st.below hb) hm hj hself⟩
  · refine ⟨?_, ?_, fun y n hb hn => ?_⟩
    · by_contra hout
      have hsame := R.kept.cleared.off hout
      rw [hk, hm, Option.map_some, Option.map_some, hd, hclean] at hsame
      cases hsame
    · rintro rfl
      rw [hj] at hm
      rw [← Option.some.inj hm, hself] at hclean
      cases hclean
    · -- a mark below would have kept this one
      exact R.closed.clean_below (st.below hb) hm hclean hn

theorem Outline.Sound.bare_refresh {r : Except Failure (Option SharedTree)}
    (s : W.outline.Sound) (hi : W.outline.get? h = some i)
    (hx : exec (Workspace.refresh held h) W = (r, W')) : W'.outline.bare = W.outline.bare :=
  (Workspace.exec_refresh s hi hx).kept.cleared.tree.bare_eq
    (Workspace.refresh_faded h hx).alike.generations

/-! ### Failing refreshes between edits -/

/-- The workspace after some edits. -/
def Workspace.edited (W : Workspace) (cs : List EditCall) : Workspace :=
  cs.foldl (fun V c => (exec (Workspace.edit c.edit) V).2) W

/-- Edits that are accepted and leave an item where it can be reached, and at any time refreshes of the
item that fail. -/
inductive Retried (h : Handle) (W : Workspace) : List EditCall → Workspace → Prop
  | start : Retried h W [] W
  | edit {cs : List EditCall} {c : EditCall} {V V' : Workspace} : Retried h W cs V →
      (EditStep.edit c).Takes V V' → V'.outline.Reachable h → Retried h W (cs ++ [c]) V'
  | failed {cs : List EditCall} {V V' : Workspace} {held : List SharedTree} {e : Failure} :
      Retried h W cs V → exec (Workspace.refresh held h) V = (.error e, V') → Retried h W cs V'

theorem Retried.after (hx : exec (Workspace.refresh held h) W = (.error e, W'))
    (q : Retried h W' cs V) : Retried h W cs V := by
  induction q with
  | start => exact .failed .start hx
  | edit _ hc hr ih => exact .edit ih hc hr
  | failed _ hx ih => exact .failed ih hx

/-- On runs there is a dirty item. -/
structure DirtyRun (h : Handle) (W : Workspace) : Prop where
  run : EditRun W
  dirty : ∃ i, W.outline.get? h = some i ∧ i.dirty = true

/-- What the refresh of a dirty item on a run gives. -/
theorem DirtyRun.refresh (d : DirtyRun h W) (held : List SharedTree) :
    (exec (Workspace.refresh held h) W).1.map (Option.map Tree.plain) =
      (W.outline.plainImage h).map some := by
  obtain ⟨i, hi, hd⟩ := d.dirty
  exact (Workspace.exec_refresh d.run.sound hi rfl).image hi hd

theorem DirtyRun.of_failed (run : EditRun W) (hi : W.outline.get? h = some i)
    (hx : exec (Workspace.refresh held h) W = (.error e, W')) :
    DirtyRun h W ∧ DirtyRun h W' := by
  have s := run.sound
  have R := Workspace.exec_refresh s hi hx
  obtain ⟨j, hj, -⟩ := R.kept.cleared.tree.agree.get?_eq_some hi
  refine ⟨⟨run, i, hi, ?_⟩, run.step (.refresh (s.tree.reachable s.attached hi) hx), j, hj,
    R.failed rfl hj⟩
  by_contra hclean
  cases (R.idle hi (by simpa using hclean)).1

/-- An accepted edit of an outline is accepted of one that differs in memory and marks only. -/
theorem EditStep.Takes.blind {U : Workspace} (s : U.outline.Sound) (so : V.outline.Sound)
    (ho : U.outline.bare = V.outline.bare) (hc : (EditStep.edit c).Takes V V') :
    (EditStep.edit c).Takes U (exec (Workspace.edit c.edit) U).2 ∧
      (exec (Workspace.edit c.edit) U).2.outline.bare = V'.outline.bare := by
  cases hc with
  | @edit _ _ r _ hlive hx hr =>
      have hrun := Workspace.exec_of_edit hx
      obtain ⟨hresult, hbare⟩ := c.blind.congr ho
      rw [hrun] at hresult hbare
      rw [Workspace.exec_edit]
      refine ⟨.edit (r := (exec c.edit U.outline).1) (fun x hmem => ?_) (Workspace.exec_edit ..)
        fun v hv => hr v ?_, hbare⟩
      · obtain ⟨k, hk⟩ := so.tree.live_of_reachable (hlive x hmem)
        obtain ⟨m, hm, -⟩ := (SameTree.of_bare ho).agree.get?_eq_some hk
        exact s.tree.reachable s.attached hm
      · rw [hv] at hresult
        cases r with
        | error f => exact congrArg Except.error (Except.error.inj hresult).symm
        | ok _ => cases hresult

/-- A dirty item that stays through an accepted edit. -/
theorem DirtyRun.edit (d : DirtyRun h V) (hc : (EditStep.edit c).Takes V V')
    (hj : V'.outline.get? h = some j) : DirtyRun h V' := by
  obtain ⟨i, hi, hd⟩ := d.dirty
  refine ⟨d.run.step hc, j, hj, ?_⟩
  cases hc with
  | edit hlive hx hr =>
      exact EditCall.dirty d.run.sound.tree.free (Workspace.exec_of_edit hx) hi hd hj

/-- Failing refreshes between edits make no difference but in memory and marks. -/
theorem Retried.twin (q : Retried h W cs V) (d : DirtyRun h W) :
    DirtyRun h V ∧ DirtyRun h (W.edited cs) ∧
      (W.edited cs).outline.bare = V.outline.bare := by
  -- both sides stay on runs with a dirty item, so edits are accepted on both or on neither
  induction q with
  | start => exact ⟨d, d, rfl⟩
  | @edit cs c V V' q hc hr ih =>
      obtain ⟨dV, dU, ho⟩ := ih
      obtain ⟨hcU, ho'⟩ := hc.blind dU.run.sound dV.run.sound ho
      obtain ⟨j, hj⟩ := (dV.run.step hc).sound.tree.live_of_reachable hr
      obtain ⟨k, hk, -⟩ := (SameTree.of_bare ho').agree.get?_eq_some hj
      unfold Workspace.edited at hcU ho' hk ⊢
      rw [List.foldl_append]
      exact ⟨dV.edit hc hj, dU.edit hcU hk, ho'⟩
  | @failed cs V V' held e q hx ih =>
      obtain ⟨dV, dU, ho⟩ := ih
      obtain ⟨i, hi, -⟩ := dV.dirty
      exact ⟨(DirtyRun.of_failed dV.run hi hx).2, dU,
        ho.trans (dV.run.sound.bare_refresh hi hx).symm⟩

/-- The refresh after them gives what it gives without them. -/
theorem Retried.refresh (q : Retried h W cs V) (d : DirtyRun h W) (held held₀ : List SharedTree) :
    (exec (Workspace.refresh held h) V).1.map (Option.map Tree.plain) =
      (exec (Workspace.refresh held₀ h) (W.edited cs)).1.map (Option.map Tree.plain) := by
  obtain ⟨dV, dU, ho⟩ := q.twin d
  obtain ⟨i, hi, -⟩ := dU.dirty
  have s := dU.run.sound
  rw [dV.refresh held, dU.refresh held₀, (SameTree.of_bare ho.symm).plainImage s.tree s.attached hi]

/-- Once a refresh has failed, it fails in the same way until there is an edit. -/
theorem Retried.fails_again (d : DirtyRun h W)
    (he : W.outline.plainImage h = .error e) (q : Retried h W [] V)
    (helds : List (List SharedTree)) (held : List SharedTree) :
    (exec (Workspace.refresh held h)
      (helds.foldl (fun V held => (exec (Workspace.refresh held h) V).2) V)).1 = .error e := by
  have again : ∀ {V}, Retried h W [] V → ∀ held,
      (exec (Workspace.refresh held h) V).1 = .error e := by
    intro V q held
    have hresult := (q.refresh d held held).trans (d.refresh held)
    rw [he] at hresult
    cases hr : (exec (Workspace.refresh held h) V).1 with
    | error f =>
        rw [hr] at hresult
        exact congrArg Except.error (Except.error.inj hresult)
    | ok b =>
        rw [hr] at hresult
        cases hresult
  induction helds generalizing V with
  | nil => exact again q held
  | cons held₁ helds ih => exact ih (q.failed (Prod.ext (again q held₁) rfl))

/-- A refresh that fails on an editing run loses nothing.  But for marks below the item the outline is
what it was.  The refresh fails again in the same way, however often it is tried and whatever is
held.  And after edits, with failing refreshes at any time, the item is dirty still, and its refresh gives
what its tree, contents and document alone make of it, just as if no refresh had failed. -/
theorem EditRun.failed_refresh_loses_nothing (run : EditRun W) (hr : W.outline.Reachable h)
    (hx : exec (Workspace.refresh held h) W = (.error e, W')) :
    Unharmed h W.outline W'.outline ∧
    (∀ (helds : List (List SharedTree)) (held : List SharedTree), (exec (Workspace.refresh held h)
      (helds.foldl (fun V held => (exec (Workspace.refresh held h) V).2) W')).1 = .error e) ∧
    (∀ (cs : List EditCall) (V : Workspace), Retried h W' cs V →
      SameTree (W.edited cs).outline V.outline ∧
      (∃ i, V.outline.get? h = some i ∧ i.dirty = true) ∧
      ∀ held held₀ : List SharedTree,
        (exec (Workspace.refresh held h) V).1.map (Option.map Tree.plain) =
          (V.outline.plainImage h).map some ∧
        (exec (Workspace.refresh held h) V).1.map (Option.map Tree.plain) =
          (exec (Workspace.refresh held₀ h) (W.edited cs)).1.map (Option.map Tree.plain)) := by
  obtain ⟨i, hi⟩ := run.sound.tree.live_of_reachable hr
  obtain ⟨d, -⟩ := DirtyRun.of_failed run hi hx
  have he := (Workspace.exec_refresh run.sound hi hx).plainImage_of_error hi
  refine ⟨run.sound.unharmed hi hx, Retried.fails_again d he (.failed .start hx), fun cs V q => ?_⟩
  have q₀ := q.after hx
  obtain ⟨dV, dU, ho⟩ := q₀.twin d
  exact ⟨.of_bare ho.symm, dV.dirty, fun held held₀ => ⟨dV.refresh held, q₀.refresh d held held₀⟩⟩

/-- A folder of two files of which the second has no contents: the refresh of the root takes the mark
of the first file away and fails, and fails again until the second file has contents. -/
theorem EditRun.failed_refresh_of_missing_file :
    ∃ (W W' V : Workspace) (e : Failure), EditRun W ∧
      exec (Workspace.refresh [] Outline.root) W = (.error e, W') ∧
      e = .error (.missingData (.ofNames ["d", "b"])) ∧
      (W.outline.get? ⟨3, 0⟩).map Item.dirty = some true ∧
      (W'.outline.get? ⟨3, 0⟩).map Item.dirty = some false ∧
      Unharmed Outline.root W.outline W'.outline ∧
      (exec (Workspace.refresh [] Outline.root) W').1 = .error e ∧
      Retried Outline.root W' [.setContents ⟨4, 0⟩ [0x32]] V ∧
      (exec (Workspace.refresh [] Outline.root) V).1.map (Option.map Tree.plain) =
        (V.outline.plainImage Outline.root).map some ∧
      (V.outline.plainImage Outline.root).toOption.any (·.same
        (Tree.dir () [("d", .dir () [("a", .file () [0x31]), ("b", .file () [0x32])])])) = true := by
  obtain ⟨W, run, hW⟩ := EditRun.exists_of_play none 0
    [.edit (.add Outline.root .group "Package"),
      .edit (.add ⟨1, 0⟩ .folder "d"), .edit (.add ⟨2, 0⟩ .file "a"),
      .edit (.add ⟨2, 0⟩ .file "b"), .edit (.setContents ⟨3, 0⟩ [0x31])]
    (fun W =>
      (W.outline.get? ⟨3, 0⟩).map Item.dirty == some true &&
      (match exec (Workspace.refresh [] Outline.root) W with
        | (.error e, W') => decide (e = .error (.missingData (.ofNames ["d", "b"]))) &&
            (W'.outline.get? ⟨3, 0⟩).map Item.dirty == some false &&
            ((EditStep.edit (.setContents ⟨4, 0⟩ [0x32])).next? W').any (fun V =>
              (V.outline.plainImage Outline.root).toOption.any (·.same
                (Tree.dir () [("d", .dir () [("a", .file () [0x31]), ("b", .file () [0x32])])])))
        | (.ok _, _) => false))
    (by decide +kernel)
  obtain ⟨hmarked, hW⟩ := (Bool.and_eq_true ..).mp hW
  rcases hx : exec (Workspace.refresh [] Outline.root) W with ⟨e | r, W'⟩
  · rw [hx] at hW
    simp only [Bool.and_eq_true, beq_iff_eq, decide_eq_true_eq] at hW
    obtain ⟨⟨he, hcleared⟩, hW⟩ := hW
    obtain ⟨V, hnext, himage⟩ := (Option.any_eq_true ..).mp hW
    have takes := (run.step (.refresh .root hx)).sound.takes_of_next? hnext
    have retried := Retried.edit .start takes .root
    obtain ⟨unharmed, again, later⟩ := run.failed_refresh_loses_nothing .root hx
    obtain ⟨-, -, gives⟩ := later _ V retried
    exact ⟨W, W', V, e, run, hx, he, beq_iff_eq.mp hmarked, hcleared, unharmed, again [] [],
      retried, (gives [] []).1, himage⟩
  · rw [hx] at hW
    cases hW

end PackageOutline
