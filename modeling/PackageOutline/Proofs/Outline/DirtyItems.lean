import Mathlib.Order.BooleanAlgebra.Set
import PackageOutline.Proofs.Outline.Touched

/-! # Which items are dirty

Every operation on an editing run changes the set of dirty items in one way
(`EditRun.dirtyItems_after`).  An edit adds the line that it marks, and a removal drops the items that
go.  Asking for an image and committing a document leave the set alone.  Refreshing a dirty item takes
out the item and all below it: clean items are passed over, but nothing below them is dirty. -/

namespace PackageOutline

namespace Outline

variable {o o' : Outline} {h x : Handle} {i : Item} {gone l : List Handle} {P : Handle → Prop}

/-- The dirty items. -/
def dirtyItems (o : Outline) : Set Handle :=
  {x | o.Reachable x ∧ ∃ i, o.get? x = some i ∧ i.dirty = true}

/-- An item and all items above it. -/
def upFrom (o : Outline) (h : Handle) : Set Handle := {x | o.Below x h}

/-- An item and all items below it. -/
def downFrom (o : Outline) (h : Handle) : Set Handle := {x | o.Below h x}

theorem WellFormed.mem_dirtyItems (w : o.WellFormed) (a : o.Attached) :
    x ∈ o.dirtyItems ↔ ∃ i, o.get? x = some i ∧ i.dirty = true :=
  ⟨And.right, fun ⟨i, hi, hd⟩ => ⟨w.reachable a hi, i, hi, hd⟩⟩

theorem Sound.mem_dirtyItems (s : o.Sound) :
    x ∈ o.dirtyItems ↔ ∃ i, o.get? x = some i ∧ i.dirty = true :=
  s.tree.mem_dirtyItems s.attached

theorem Sound.mem_dirtyItems_of_get? (s : o.Sound) (hi : o.get? x = some i) :
    x ∈ o.dirtyItems ↔ i.dirty = true := by
  rw [s.mem_dirtyItems]
  refine ⟨fun ⟨j, hj, hd⟩ => ?_, fun hd => ⟨i, hi, hd⟩⟩
  rw [hi] at hj
  rw [Option.some.inj hj, hd]

theorem WellFormed.below_antisymm (w : o.WellFormed) (a : o.Attached) (hb : o.Below h x)
    (hb' : o.Below x h) : h = x := by
  cases hb with
  | self => rfl
  | step hi hp hb =>
      obtain ⟨j, hj, hmem⟩ := w.parent_of a hi hp
      exact absurd (hb'.trans hb) (w.not_below_parent hj hmem)

theorem Line.setOf_mem (hl : o.Line h l) : {x | x ∈ l} = o.upFrom h :=
  Set.ext fun _ => hl.mem_iff

/-- The dirty items after an edit are those that were dirty and stay, and those of the line. -/
theorem Touched.dirtyItems (t : Touched gone l o o') (s : o.Sound) (s' : o'.Sound) :
    o'.dirtyItems = (o.dirtyItems \ {x | x ∈ gone}) ∪ {x | x ∈ l} := by
  ext x
  show x ∈ o'.dirtyItems ↔ x ∈ o.dirtyItems ∧ x ∉ gone ∨ x ∈ l
  rw [s.mem_dirtyItems, s'.mem_dirtyItems]
  by_cases hx : x ∈ l
  · exact iff_of_true (t.on hx) (Or.inr hx)
  · have hoff := t.off hx
    constructor
    · rintro ⟨j, hj, hd⟩
      obtain ⟨hgone, i, hi, hhusk⟩ := t.old hx hj
      exact Or.inl ⟨⟨i, hi, (Item.husk_eq_iff.mp hhusk).2.2.trans hd⟩, hgone⟩
    · rintro (⟨⟨i, hi, hd⟩, hgone⟩ | hl)
      · rw [if_neg hgone, hi, Option.map_some] at hoff
        obtain ⟨j, hj, hhusk⟩ := Option.map_eq_some_iff.mp hoff
        exact ⟨j, hj, (Item.husk_eq_iff.mp hhusk).2.2.trans hd⟩
      · exact absurd hl hx

theorem Touched.dirtyItems_add (t : Touched [] l o o') (s : o.Sound) (s' : o'.Sound) :
    o'.dirtyItems = o.dirtyItems ∪ {x | x ∈ l} := by
  rw [t.dirtyItems s s']
  simp

theorem Cleared.mem_dirtyItems (m : Cleared P o o') (s : o.Sound) (s' : o'.Sound) (hx : ¬ P x) :
    x ∈ o'.dirtyItems ↔ x ∈ o.dirtyItems := by
  rw [s.mem_dirtyItems, s'.mem_dirtyItems]
  refine ⟨fun ⟨j, hj, hd⟩ => m.less hj hd, fun ⟨i, hi, hd⟩ => ?_⟩
  have hoff := m.off hx
  rw [hi, Option.map_some] at hoff
  obtain ⟨j, hj, hjd⟩ := Option.map_eq_some_iff.mp hoff
  exact ⟨j, hj, hjd.trans hd⟩

end Outline

open Outline

/-- What an edit does to the set of dirty items, and how it may fail. -/
def EditCall.Dirties (o o' : Outline) (r : Except Failure Unit) : EditCall → Prop
  | add parent kind name | insertNew parent kind name _ _ =>
    ∃ h, o.get? h = none ∧ (o'.get? h).map Item.stem = some (kind, name, some parent) ∧
      o'.dirtyItems = o.dirtyItems ∪ insert h (o.upFrom parent)
  | setContents item _ =>
    if o.isFile item then r = .ok () ∧ o'.dirtyItems = o.dirtyItems ∪ o.upFrom item
    else (∃ kind name, r = .error (.error (.notAFile kind name))) ∧ o'.dirtyItems = o.dirtyItems
  | markDirty item | rename item _ => o'.dirtyItems = o.dirtyItems ∪ o.upFrom item
  | remove item => ∃ parent, (o.get? item).bind Item.parent = some parent ∧
      o'.dirtyItems = (o.dirtyItems \ o.downFrom item) ∪ o.upFrom parent
  | move parent _ _ | reorder parent _ => o'.dirtyItems = o.dirtyItems ∪ o.upFrom parent

namespace Outline

variable {o o' : Outline} {h x : Handle} {i : Item} {c : EditCall} {r : Except Failure Unit}

theorem Sound.edit_dirties (s : o.Sound) (hlive : ∀ x ∈ c.items, o.Reachable x)
    (hx : exec c.edit o = (r, o')) (hr : Accepted r) : c.Dirties o o' r := by
  have s' := s.edit hlive hx hr
  have line : ∀ {h l}, o.Line h l → Touched [] l o o' →
      o'.dirtyItems = o.dirtyItems ∪ o.upFrom h :=
    fun hl t => by rw [t.dirtyItems_add s s', hl.setOf_mem]
  have place : ∀ {h p l}, o.Line p l → Touched [] (h :: l) o o' →
      o'.dirtyItems = o.dirtyItems ∪ insert h (o.upFrom p) := by
    intro h p l hl t
    rw [t.dirtyItems_add s s', ← hl.setOf_mem]
    exact congrArg (o.dirtyItems ∪ ·) (Set.ext fun _ => List.mem_cons)
  cases s.outcome hlive hx hr with
  | refused hc hi hk hresult ho =>
      subst hc ho
      have hfile : ¬ o'.isFile _ = true := fun hf => hk ((isFile_iff hi).mp hf)
      rw [EditCall.Dirties, if_neg hfile]
      exact ⟨⟨_, _, hresult⟩, rfl⟩
  | done hok marks t =>
      cases c with
      | add parent kind name | insertNew parent kind name below index =>
          obtain ⟨h, l, rfl, hl, hnone, hstem⟩ := marks
          exact ⟨h, hnone, hstem, place hl t⟩
      | setContents item contents =>
          rw [EditCall.Dirties, if_pos marks.1]
          exact ⟨hok, line marks.2 t⟩
      | markDirty item | rename item name | move item start stop | reorder item order =>
          exact line marks t
      | remove item =>
          obtain ⟨i, p, hi, hp, hl⟩ := marks
          refine ⟨p, by rw [hi, Option.bind_some, hp], ?_⟩
          rw [t.dirtyItems s s', hl.setOf_mem]
          have hgone : {x | x ∈ o.family item} = o.downFrom item :=
            Set.ext fun x => s.tree.mem_family_iff s.attached hi
          exact congrArg (o.dirtyItems \ · ∪ o.upFrom p) hgone

end Outline

namespace Workspace

variable {W W' : Workspace} {h : Handle} {held : List SharedTree}

theorem dirtyItems_image {r : Except Failure SharedTree} (s : W.outline.Sound)
    (hreach : W.outline.Reachable h) (hx : exec (image held h) W = (r, W')) :
    W'.outline.dirtyItems = W.outline.dirtyItems := by
  obtain ⟨i, hi⟩ := s.tree.live_of_reachable hreach
  have k := (exec_image s hi hx).2
  have s' := s.kept k (k.cleared.dirtyClosed s.closed)
  exact Set.ext fun x => k.cleared.mem_dirtyItems s s' not_false

/-- What refreshing an item does to the set of dirty items: nothing when the item is clean, and when
it ends well it takes out the item and all below it.  When it fails it takes out some below it. -/
structure Cleans (W : Workspace) (h : Handle) (r : Except Failure (Option SharedTree))
    (W' : Workspace) : Prop where
  idle : h ∉ W.outline.dirtyItems → r = .ok none ∧ W' = W
  done : ∀ {b}, h ∈ W.outline.dirtyItems → r = .ok b → b.isSome = true ∧
    W'.outline.dirtyItems = W.outline.dirtyItems \ W.outline.downFrom h ∧
    ∀ x ∈ W.outline.upFrom h, x ≠ h → (x ∈ W'.outline.dirtyItems ↔ x ∈ W.outline.dirtyItems)
  failed : ∀ {e}, h ∈ W.outline.dirtyItems → r = .error e →
    W'.outline.dirtyItems ⊆ W.outline.dirtyItems ∧
    ∀ x ∈ W.outline.dirtyItems, x ∉ W'.outline.dirtyItems → x ∈ W.outline.downFrom h ∧ x ≠ h

theorem cleans_refresh {r : Except Failure (Option SharedTree)} (s : W.outline.Sound)
    (hreach : W.outline.Reachable h) (hx : exec (refresh held h) W = (r, W')) :
    W.Cleans h r W' := by
  obtain ⟨i, hi⟩ := s.tree.live_of_reachable hreach
  have R := exec_refresh s hi hx
  have s' := s.kept R.kept R.closed
  have off : ∀ {x}, ¬ W.outline.Below h x →
      (x ∈ W'.outline.dirtyItems ↔ x ∈ W.outline.dirtyItems) :=
    fun hb => R.kept.cleared.mem_dirtyItems s s' hb
  constructor
  case idle =>
    intro hclean
    rw [s.mem_dirtyItems_of_get? hi, Bool.not_eq_true] at hclean
    exact R.idle hi hclean
  case done =>
    rintro b hd rfl
    refine ⟨?_, ?_, fun x hup hne => off fun hb => hne (s.tree.below_antisymm s.attached hup hb)⟩
    · have himage := R.image hi ((s.mem_dirtyItems_of_get? hi).mp hd)
      cases b with
      | some t => rfl
      | none => cases hp : W.outline.plainImage h <;> rw [hp] at himage <;> cases himage
    · ext x
      show _ ↔ x ∈ W.outline.dirtyItems ∧ ¬ W.outline.Below h x
      by_cases hb : W.outline.Below h x
      · -- also below the clean items that were passed over nothing is dirty
        refine iff_of_false (fun hd' => ?_) fun hout => hout.2 hb
        obtain ⟨j, hj, hjd⟩ := s'.mem_dirtyItems.mp hd'
        rw [R.clean rfl hb hj] at hjd
        cases hjd
      · rw [off hb, and_iff_left hb]
  case failed =>
    rintro e hd rfl
    refine ⟨fun x hx' => ?_, fun x hd' hclean => ⟨?_, ?_⟩⟩
    · obtain ⟨j, hj, hjd⟩ := s'.mem_dirtyItems.mp hx'
      exact s.mem_dirtyItems.mpr (R.kept.cleared.less hj hjd)
    · by_contra hb
      exact hclean ((off hb).mpr hd')
    · rintro rfl
      obtain ⟨j, hj, -⟩ := R.kept.cleared.tree.agree.get?_eq_some hi
      exact hclean (s'.mem_dirtyItems.mpr ⟨j, hj, R.failed rfl hj⟩)

theorem dirtyItems_commit (s : W.outline.Sound) (t : SharedTree) :
    (exec (commit t) W).2.outline.dirtyItems = W.outline.dirtyItems := by
  obtain ⟨notices, hrun⟩ := exec_commit t W
  have ag : ∀ {β : Type} (f : Item → β), AgreeOn f W.outline { W.outline with document := some t } :=
    fun _ => ⟨rfl, rfl, fun _ => rfl⟩
  rw [hrun]
  ext x
  rw [s.mem_dirtyItems, (s.tree.congr (ag _)).mem_dirtyItems (s.attached.congr (ag _))]
  rfl

end Workspace

/-! ### On editing runs -/

/-- What the operations do to the set of dirty items on an editing run. -/
theorem EditRun.dirtyItems_after {W : Workspace} (run : EditRun W) :
    (∀ (c : EditCall) r W', (∀ x ∈ c.items, W.outline.Reachable x) →
      exec (Workspace.edit c.edit) W = (r, W') → Accepted r → c.Dirties W.outline W'.outline r) ∧
    (∀ h held r W', W.outline.Reachable h → exec (Workspace.image held h) W = (r, W') →
      W'.outline.dirtyItems = W.outline.dirtyItems) ∧
    (∀ h held r W', W.outline.Reachable h → exec (Workspace.refresh held h) W = (r, W') →
      W.Cleans h r W') ∧
    ∀ t, (exec (Workspace.commit t) W).2.outline.dirtyItems = W.outline.dirtyItems := by
  have s := run.sound
  refine ⟨fun c r W' hlive hx hr => ?_, fun h held r W' hreach hx => ?_,
    fun h held r W' hreach hx => ?_, fun t => ?_⟩
  · exact s.edit_dirties hlive (Workspace.exec_of_edit hx) hr
  · exact Workspace.dirtyItems_image s hreach hx
  · exact Workspace.cleans_refresh s hreach hx
  · exact Workspace.dirtyItems_commit s t

/-- A folder with a dirty and a clean file: the clean file is renamed, the clean file is removed, or the
folder is refreshed. -/
theorem EditRun.dirtyItems_after_refresh : ∃ W V V' V'' : Workspace, EditRun W ∧
    ⟨3, 0⟩ ∈ W.outline.dirtyItems ∧ ⟨4, 0⟩ ∉ W.outline.dirtyItems ∧
    exec (Workspace.edit (EditCall.rename ⟨4, 0⟩ "c").edit) W = (.ok (), V) ∧
    V.outline.dirtyItems = W.outline.dirtyItems ∪ W.outline.upFrom ⟨4, 0⟩ ∧
    exec (Workspace.edit (EditCall.remove ⟨4, 0⟩).edit) W = (.ok (), V') ∧
    V'.outline.dirtyItems =
      (W.outline.dirtyItems \ W.outline.downFrom ⟨4, 0⟩) ∪ W.outline.upFrom ⟨2, 0⟩ ∧
    (∃ t, exec (Workspace.refresh [] ⟨2, 0⟩) W = (.ok (some t), V'')) ∧
    V''.outline.dirtyItems = W.outline.dirtyItems \ W.outline.downFrom ⟨2, 0⟩ := by
  obtain ⟨W, run, hW⟩ := EditRun.exists_of_play none 0
    [.edit (.add Outline.root .group "Package"),
      .edit (.add ⟨1, 0⟩ .folder "d"), .edit (.add ⟨2, 0⟩ .file "a"),
      .edit (.setContents ⟨3, 0⟩ [0x31]), .edit (.add ⟨2, 0⟩ .file "b"),
      .edit (.setContents ⟨4, 0⟩ []), .refresh [] Outline.root,
      .edit (.setContents ⟨3, 0⟩ [0x32])]
    (fun W =>
      (W.outline.get? ⟨2, 0⟩).any (·.dirty) && (W.outline.get? ⟨3, 0⟩).any (·.dirty) &&
      (W.outline.get? ⟨4, 0⟩).any (fun i => !i.dirty && i.parent = some ⟨2, 0⟩) &&
      (exec (Workspace.edit (EditCall.rename ⟨4, 0⟩ "c").edit) W).1.toOption.isSome &&
      (exec (Workspace.edit (EditCall.remove ⟨4, 0⟩).edit) W).1.toOption.isSome &&
      (exec (Workspace.refresh [] ⟨2, 0⟩) W).1.toOption.any Option.isSome)
    (by decide +kernel)
  simp only [Bool.and_eq_true] at hW
  obtain ⟨⟨⟨⟨⟨hfolder, hdirty⟩, hclean⟩, hrename⟩, hremove⟩, hrefresh⟩ := hW
  obtain ⟨d, hd, hdd⟩ := (Option.any_eq_true ..).mp hfolder
  obtain ⟨a, ha, had⟩ := (Option.any_eq_true ..).mp hdirty
  obtain ⟨b, hb, hbd⟩ := (Option.any_eq_true ..).mp hclean
  simp only [Bool.and_eq_true, Bool.not_eq_true', decide_eq_true_eq] at hbd
  have s := run.sound
  obtain ⟨edits, -, refreshes, -⟩ := run.dirtyItems_after
  have reach : W.outline.Reachable ⟨4, 0⟩ := s.tree.reachable s.attached hb
  have hb' : ⟨4, 0⟩ ∉ W.outline.dirtyItems := by
    rw [s.mem_dirtyItems_of_get? hb, hbd.1]
    exact Bool.false_ne_true
  have accepted : ∀ c : EditCall, c.items = [⟨4, 0⟩] →
      (exec (Workspace.edit c.edit) W).1.toOption.isSome = true →
      ∃ V, exec (Workspace.edit c.edit) W = (.ok (), V) ∧
        c.Dirties W.outline V.outline (.ok ()) := by
    intro c hc hok
    obtain ⟨⟨⟩, hu⟩ := Option.isSome_iff_exists.mp hok
    rcases hrun : exec (Workspace.edit c.edit) W with ⟨r, V⟩
    rw [hrun] at hu
    obtain rfl := toOption_eq_some.mp hu
    refine ⟨V, rfl, edits c _ V (fun x hx => ?_) hrun fun v hv => by cases hv⟩
    rw [hc] at hx
    exact List.mem_singleton.mp hx ▸ reach
  obtain ⟨V, hV, dirties⟩ := accepted _ rfl hrename
  obtain ⟨V', hV', parent, hparent, dirties'⟩ := accepted _ rfl hremove
  rw [hb, Option.bind_some, hbd.2] at hparent
  obtain rfl := Option.some.inj hparent
  rcases hrun : exec (Workspace.refresh [] ⟨2, 0⟩) W with ⟨r, V''⟩
  obtain ⟨u, hu, hsome⟩ := (Option.any_eq_true ..).mp hrefresh
  obtain ⟨t, rfl⟩ := Option.isSome_iff_exists.mp hsome
  rw [hrun] at hu
  obtain rfl := toOption_eq_some.mp hu
  have cleans := refreshes ⟨2, 0⟩ [] _ V'' (s.tree.reachable s.attached hd) hrun
  exact ⟨W, V, V', V'', run, (s.mem_dirtyItems_of_get? ha).mpr had, hb', hV, dirties, hV',
    dirties', ⟨t, hrun⟩, (cleans.done ((s.mem_dirtyItems_of_get? hd).mpr hdd) rfl).2.1⟩

end PackageOutline
