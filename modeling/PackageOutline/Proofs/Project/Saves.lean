import PackageOutline.Project
import PackageOutline.Proofs.Disk.Writing
import PackageOutline.Proofs.Outline.Document
import PackageOutline.Proofs.Outline.Saving
import PackageOutline.Proofs.Outline.Showing

/-! # Saving a project

What one save of a project does (`Project.exec_save`): it has nothing to do, its tree cannot be made,
writing fails, or the tree is written and becomes the document.

A save that ends well leaves each file on disk with its contents, but one that the document before
had with the same contents is left as it is on disk (`Project.stored_of_committed`). -/

namespace PackageOutline

namespace Outline

variable {o : Outline} {names : List String} {t : SharedTree}

/-- The contents of the file that the document has at a path. -/
def entryAt (o : Outline) (names : List String) : Option Bytes :=
  (o.document.bind (·.find? names)).bind Tree.contents?

theorem entryAt_eq_at? (hn : names ≠ []) :
    o.entryAt names = (o.document.bind (Tree.at? names)).bind Tree.contents? := by
  unfold entryAt
  cases o.document with
  | none => rfl
  | some t => rw [Option.bind_some, Option.bind_some, Tree.find?_eq_at? hn]

theorem WellFormed.storable_root (w : o.WellFormed) (a : o.Attached)
    (ht : o.plainImage Outline.root = .ok t.plain) : t.Storable := by
  obtain ⟨hnamed, -, hlist⟩ := w.listing_root a ht
  rw [Tree.plain, Tree.listing_map] at hlist
  refine Tree.storable_of_listing [] t ((Tree.wellNamed_map_iff _ t).mp hnamed) fun e he => ?_
  rw [hlist] at he
  obtain ⟨x, hx, rfl⟩ := List.mem_map.mp he
  obtain ⟨hx, -⟩ := List.mem_filter.mp hx
  obtain ⟨r, hr, -⟩ := w.root
  obtain ⟨i, hi⟩ := w.live_of_mem_family hr hx
  obtain ⟨l, hl⟩ := w.exists_line a hi
  exact w.names_diskPath hl

theorem Sound.file_committed {f : Handle} {i : Item} (s : o.Sound)
    (ht : o.plainImage Outline.root = .ok t.plain) (hi : o.get? f = some i) (hk : i.kind = .file) :
    ∃ c, ({ o with document := some t } : Outline).data f = some c ∧
      (t.find? (o.diskPath f)).bind Tree.contents? = some c ∧
      ({ o with document := some t } : Outline).diskPath f = o.diskPath f := by
  have hfile : o.isFile f = true := (isFile_iff hi).mpr hk
  obtain ⟨c, hc⟩ := (s.tree.complete_of_plainImage s.attached ht).data
    (s.tree.reachable s.attached hi) hfile
  obtain ⟨hdata, hpath⟩ := s.data_commit ht hi hk hc
  exact ⟨c, hdata, s.tree.find?_of_data s.attached ht hi hk hc, hpath⟩

theorem Mirrored.entryAt {f : Handle} {i r : Item} (m : o.Mirrored)
    (hr : o.get? Outline.root = some r) (hclean : r.dirty = false) (hi : o.get? f = some i)
    (hk : i.kind = .file) : o.entryAt (o.diskPath f) = o.data f := by
  unfold Outline.data
  rw [hi, Option.bind_some]
  cases hc : i.contents with
  | none => rfl
  | some c => exact m hr hclean hi hk hc

end Outline

namespace Project

open Outline

variable {P P' : Project} {root : Path} {held : List SharedTree} {α : Type}

theorem exec_onOutline (w : Work α) (P : Project) : exec (onOutline w) P =
    ((exec w P.workspace).1.mapError .ofOutline, { P with workspace := (exec w P.workspace).2 }) :=
  rfl

theorem exec_onDisk (w : Disk.Writing α) (P : Project) : exec (onDisk w) P =
    (.ok (exec w ⟨P.disk, P.workspace.notices⟩).1,
      { workspace := { P.workspace with notices := (exec w ⟨P.disk, P.workspace.notices⟩).2.notices }
        disk := (exec w ⟨P.disk, P.workspace.notices⟩).2.disk }) := rfl

theorem exec_report (level : Level) (origin : Origin) (text : String) (P : Project) :
    ∃ notices, exec (report level origin text) P =
      (.ok (), { P with workspace := { P.workspace with notices } }) := ⟨_, rfl⟩

/-- Whether a save takes no directory for the same as another one. -/
def tells (held : List SharedTree) (P : Project) : Bool :=
  match exec (Workspace.refresh held Outline.root) P.workspace with
  | (.ok (some t), _) =>
    Disk.tells (fun previous t => previous.fingerprint = t.fingerprint) P.workspace.outline.document t
  | _ => true

/-- Whether a save failed in writing. -/
def writeFailed : Except ProjectFailure Disk.Summary → Bool
  | .error (.error (.unwritable _)) => true
  | _ => false

@[simp] theorem writeFailed_ok (summary : Disk.Summary) : writeFailed (.ok summary) = false := rfl

@[simp] theorem writeFailed_unwritable (e : DiskError) :
    writeFailed (.error (.error (.unwritable e))) = true := rfl

@[simp] theorem writeFailed_ofOutline (e : Failure) :
    writeFailed (.error (.ofOutline e)) = false := by
  cases e <;> rfl

/-- What a save of a sound project comes to. -/
inductive Saved (held : List SharedTree) (root : Path) (P P' : Project) :
    Except ProjectFailure Disk.Summary → Prop
  | nothing {r : Item} : P.workspace.outline.get? Outline.root = some r → r.dirty = false →
      P'.workspace.outline = P.workspace.outline → P'.disk = P.disk → Saved held root P P' (.ok {})
  | refused {e : Failure} {r : Item} {W : Workspace} :
      exec (Workspace.refresh held Outline.root) P.workspace = (.error e, W) →
      P'.workspace.outline.Sound → P'.workspace.outline.get? Outline.root = some r → r.dirty = true →
      P'.workspace.outline.document = P.workspace.outline.document → P'.disk = P.disk →
      Saved held root P P' (.error (.ofOutline e))
  | failed {e : DiskError} {r : Item} {W : Workspace} {t : SharedTree} {s s' : Disk.Log} :
      exec (Workspace.refresh held Outline.root) P.workspace = (.ok (some t), W) →
      P'.workspace.outline.Sound → SameTree P.workspace.outline P'.workspace.outline →
      P'.workspace.outline.get? Outline.root = some r → r.dirty = true →
      exec (Disk.writeTree t root P.workspace.outline.document) s = (.error e, s') →
      P.disk = s.disk → P'.disk = s'.disk → Saved held root P P' (.error (.error (.unwritable e)))
  | committed {W : Workspace} {t : SharedTree} {s s' : Disk.Log} {summary : Disk.Summary} :
      exec (Workspace.refresh held Outline.root) P.workspace = (.ok (some t), W) →
      P'.workspace.outline = { W.outline with document := some t } →
      exec (Disk.writeTree t root P.workspace.outline.document) s = (.ok summary, s') →
      P.disk = s.disk → P'.disk = s'.disk → Saved held root P P' (.ok summary)

theorem storable_of_refresh {W W' : Workspace} {t : SharedTree} (so : W.outline.Sound)
    (hx : exec (Workspace.refresh held Outline.root) W = (.ok (some t), W')) :
    t.Storable ∧ t.isDir = true := by
  obtain ⟨so', ht, -⟩ := Workspace.refresh_root so hx
  obtain ⟨-, hdir, -⟩ := so'.tree.listing_root so'.attached ht
  refine ⟨so'.tree.storable_root so'.attached ht, ?_⟩
  cases t with
  | file l c => simp [Tree.plain, Tree.map, Tree.isDir] at hdir
  | dir l es => rfl

theorem exec_markAgain {r : Except ProjectFailure Unit} (so : P.workspace.outline.Sound)
    (hx : exec (onOutline (Workspace.edit ((Edit.markDirty Outline.root).adapt .violation))) P =
      (r, P')) : r = .ok () ∧ P'.disk = P.disk ∧ P'.workspace.outline.Sound ∧
        SameTree P.workspace.outline P'.workspace.outline ∧
        ∃ i, P'.workspace.outline.get? Outline.root = some i ∧ i.dirty = true := by
  rcases hmark : exec (Workspace.edit (EditCall.markDirty Outline.root).edit) P.workspace
    with ⟨rm, V⟩
  obtain ⟨rfl, htakes, hrun, htree⟩ := so.mark_root hmark
  have hrun' : exec (onOutline (Workspace.edit ((Edit.markDirty Outline.root).adapt .violation))) P
      = (.ok (), { P with workspace := V }) := by
    rw [exec_onOutline]
    exact congrArg (fun q : Except Failure Unit × Workspace =>
      (q.1.mapError ProjectFailure.ofOutline, { P with workspace := q.2 })) hmark
  rw [hrun'] at hx
  obtain ⟨rfl, rfl⟩ := Prod.mk.inj hx
  have hsound := so.takes htakes
  exact ⟨rfl, rfl, hsound, htree, hsound.root_dirty hrun⟩

/-- What a save does with the new image of the root. -/
def store (root : Path) (updated : SharedTree) : Act Disk.Summary := do
  let previous := (← get).workspace.outline.document
  match ← onDisk (Disk.writeTree updated root previous) with
  | .error e =>
    report .warn .project s!"Saving failed, keeping unsaved changes: {e.message}"
    onOutline (Workspace.edit ((Edit.markDirty Outline.root).adapt .violation))
    throw (.error (.unwritable e))
  | .ok summary =>
    report .info .project
      s!"Saved project: {summary.written} files written, {summary.unchanged} unchanged"
    onOutline (Workspace.commit updated)
    return summary

theorem save_eq : save held root = (do
    match ← onOutline (Workspace.refresh held Outline.root) with
    | none =>
      report .info .project "Project is up to date, nothing to save"
      return {}
    | some updated => store root updated) := rfl

/-- The new image is written and becomes the document, or the root is marked again. -/
theorem exec_store {W : Workspace} {t : SharedTree} {r : Except ProjectFailure Disk.Summary}
    (hrefresh : exec (Workspace.refresh held Outline.root) P.workspace = (.ok (some t), W))
    (so : W.outline.Sound) (st : SameTree P.workspace.outline W.outline)
    (hx : exec (store root t) { P with workspace := W } = (r, P')) : Saved held root P P' r := by
  unfold store at hx
  rw [exec_bind_of_ok (exec_get _)] at hx
  rcases hwrite : exec (Disk.writeTree t root W.outline.document) ⟨P.disk, W.notices⟩
    with ⟨written, s'⟩
  have hdisk := exec_onDisk (Disk.writeTree t root W.outline.document) { P with workspace := W }
  rw [hwrite] at hdisk
  rw [exec_bind_of_ok hdisk] at hx
  rw [st.document] at hwrite
  cases written with
  | error e =>
      obtain ⟨notices, hreport⟩ := exec_report .warn .project
        s!"Saving failed, keeping unsaved changes: {e.message}"
        { workspace := { W with notices := s'.notices }, disk := s'.disk }
      rw [exec_bind_of_ok hreport] at hx
      rcases hmark : exec (onOutline
        (Workspace.edit ((Edit.markDirty Outline.root).adapt .violation)))
        { workspace := { W with notices }, disk := s'.disk } with ⟨rm, Q⟩
      obtain ⟨rfl, hd, hsound, hsame, r, hr, hdirty⟩ := exec_markAgain so hmark
      rw [exec_bind_of_ok hmark] at hx
      obtain ⟨rfl, rfl⟩ := Prod.mk.inj hx
      exact .failed hrefresh hsound (st.trans hsame) hr hdirty hwrite rfl hd
  | ok summary =>
      obtain ⟨notices, hreport⟩ := exec_report .info .project
        s!"Saved project: {summary.written} files written, {summary.unchanged} unchanged"
        { workspace := { W with notices := s'.notices }, disk := s'.disk }
      rw [exec_bind_of_ok hreport] at hx
      obtain ⟨notices', hcommit⟩ := Workspace.exec_commit t { W with notices }
      have hlast := exec_onOutline (Workspace.commit t)
        { workspace := { W with notices }, disk := s'.disk }
      rw [hcommit] at hlast
      rw [exec_bind_of_ok hlast] at hx
      obtain ⟨rfl, rfl⟩ := Prod.mk.inj hx
      exact .committed hrefresh rfl hwrite rfl rfl

/-- A save has nothing to do, is refused, fails in writing, or commits what it wrote. -/
theorem exec_save {r : Except ProjectFailure Disk.Summary} (so : P.workspace.outline.Sound)
    (hx : exec (save held root) P = (r, P')) : Saved held root P P' r := by
  rw [save_eq] at hx
  rcases hrefresh : exec (Workspace.refresh held Outline.root) P.workspace with ⟨r₀, W⟩
  have hfirst := exec_onOutline (Workspace.refresh held Outline.root) P
  rw [hrefresh] at hfirst
  obtain ⟨i, hi, -⟩ := so.tree.root
  have R := Workspace.exec_refresh so hi hrefresh
  have hstate : W.outline.Sound := so.kept R.kept R.closed
  have htree : SameTree P.workspace.outline W.outline := R.kept.cleared.tree
  cases r₀ with
  | error e =>
      rw [exec_bind_of_error hfirst] at hx
      obtain ⟨rfl, rfl⟩ := Prod.mk.inj hx
      rcases Workspace.refresh_root_none so hrefresh (fun _ h => by cases h) with
        ⟨h, -⟩ | ⟨_, -, j, hj, hd⟩
      · cases h
      · exact .refused hrefresh hstate hj hd htree.document rfl
  | ok b =>
      rw [exec_bind_of_ok hfirst] at hx
      cases b with
      | none =>
          obtain ⟨notices, hreport⟩ := exec_report .info .project
            "Project is up to date, nothing to save" { P with workspace := W }
          rw [exec_bind_of_ok hreport] at hx
          obtain ⟨rfl, rfl⟩ := Prod.mk.inj hx
          rcases Workspace.refresh_root_none so hrefresh (fun _ h => by cases h) with
            ⟨-, rfl, i, hi, hd⟩ | ⟨_, h, -⟩
          · exact .nothing hi hd rfl rfl
          · cases h
      | some t => exact exec_store hrefresh hstate htree hx

/-- What becomes of a file of the tree that is committed. -/
theorem stored_of_committed {W : Workspace} {t : SharedTree} {s s' : Disk.Log}
    {summary : Disk.Summary} {names : List String} {c : Bytes} (so : P.workspace.outline.Sound)
    (htell : P.tells held = true)
    (hrefresh : exec (Workspace.refresh held Outline.root) P.workspace = (.ok (some t), W))
    (hwrite : exec (Disk.writeTree t root P.workspace.outline.document) s = (.ok summary, s'))
    (hn : names ≠ []) (hc : (t.find? names).bind Tree.contents? = some c) :
    Disk.Stored s.disk s'.disk (root.below names) (P.workspace.outline.entryAt names) c := by
  unfold tells at htell
  rw [hrefresh] at htell
  rw [Tree.find?_eq_at? hn] at hc
  rw [entryAt_eq_at? hn]
  have hwrite' : exec (Disk.writeWith (fun previous t => previous.fingerprint = t.fingerprint)
      P.workspace.outline.document t (root.below [])) s = (.ok summary, s') := hwrite
  exact Disk.exec_writeWith_ok _ root t (storable_of_refresh so hrefresh).1 Path.names_nil htell
    hwrite' hc

/-- A save whose writing fails takes no file away. -/
theorem extends_of_failed {t : SharedTree} {document : Option SharedTree} {s s' : Disk.Log}
    {r : Except DiskError Disk.Summary} (ht : t.Storable) (hd : t.isDir = true)
    (hwrite : exec (Disk.writeTree t root document) s = (r, s')) :
    Disk.Extends (Disk.Below root [] s'.disk) s.disk s'.disk := by
  have hwrite' : exec (Disk.writeWith (fun previous t => previous.fingerprint = t.fingerprint)
      document t (root.below [])) s = (r, s') := hwrite
  exact Disk.exec_writeWith_extends _ root t ht Path.names_nil (Or.inr hd) hwrite'

end Project

end PackageOutline
