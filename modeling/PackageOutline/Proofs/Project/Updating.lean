import PackageOutline.Proofs.Project.Reload

/-! # Updating one file

An update of a project that was just loaded alters one file on disk, and makes directories of folders
that were missing.  Afterwards no item is dirty, and the image of the root is the document.  The file
holds the contents of its source then, and all files of the outline are counted, the one as written
unless the document had its contents already (`update_writes_one_file`).  As with every save, the last
part needs that no directory was taken for the same as a different one. -/

namespace PackageOutline

open Outline

/-- The places of the folders of an outline whose root lies at a path. -/
def Outline.FolderPlace (o : Outline) (root : Path) (place : List Bytes) : Prop :=
  ∃ x names, o.Reachable x ∧ o.isFolder x = true ∧ o.diskNames x = .ok names ∧
    place = (root.below names).place

namespace Project

variable {P P' : Project} {root source : Path} {item : String} {held : List SharedTree}
  {summary : Disk.Summary} {d : Disk} {o : Outline} {h : Handle} {i : Item} {c : Bytes}
  {t : SharedTree} {next : ObjectId} {files : FileTree}

section

variable (u : Updated root item source P P' summary h i c t)
  (f : P.workspace.outline.Fresh (some (files.number next).1))

include u f

theorem Updated.folder_of_isDir {ns : List String} {v : SharedTree} (hv : t.at? ns = some v)
    (hdir : v.isDir = true) (hn : ns ≠ []) : ∃ x, P.workspace.outline.Reachable x ∧
      P.workspace.outline.isFolder x = true ∧ P.workspace.outline.diskNames x = .ok ns := by
  have ag : AgreeOn Item.frame P.workspace.outline
      (P.workspace.outline.set h { i with contents := some c }) := .set u.get rfl
  obtain ⟨w, attached, -⟩ := f.complete_set u.get u.image
  rw [← Tree.find?_eq_at? hn] at hv
  obtain ⟨x, hx, hfolder, hpath⟩ := ((w.shows attached u.image).folders ns).mp ⟨v, hv, hdir⟩
  rw [ag.links.family, f.tree.mem_family_root f.attached] at hx
  obtain ⟨k, hk⟩ := f.tree.live_of_reachable hx
  have st := (f.tree.stays_setContents f.attached u.get c hk).1
  refine ⟨x, hx, ?_, ?_⟩
  · rw [isFolder_iff] at hfolder ⊢
    rwa [← st.onDisk, ← st.file]
  · obtain ⟨k', hk', -⟩ := ag.get?_eq_some hk
    rw [w.diskNames_of_get? attached hk', st.path] at hpath
    rw [f.tree.diskNames_of_get? f.attached hk, hpath]

theorem Updated.fileCount :
    t.fileCount = (P.workspace.outline.family Outline.root).countP P.workspace.outline.isFile := by
  have ag : AgreeOn Item.frame P.workspace.outline
      (P.workspace.outline.set h { i with contents := some c }) := .set u.get rfl
  obtain ⟨w, attached, -⟩ := f.complete_set u.get u.image
  rw [(w.shows attached u.image).count, ag.links.family]
  refine List.countP_congr fun x hx => ?_
  obtain ⟨k, hk⟩ := f.tree.live_of_reachable ((f.tree.mem_family_root f.attached).mp hx)
  rw [(f.tree.stays_setContents f.attached u.get c hk).1.file]

/-- When no directory was taken for the same as a different one, one file is counted as written, or
none if the document has its contents, and all others as unchanged. -/
theorem Updated.counts (htell : Disk.tells (fun previous t => previous.fingerprint = t.fingerprint)
      P.workspace.outline.document t = true) :
    summary.written = (if P.workspace.outline.entryAt (P.workspace.outline.diskPath h) = some c
      then 0 else 1) ∧ summary.written + summary.unchanged =
        (P.workspace.outline.family Outline.root).countP P.workspace.outline.isFile := by
  obtain ⟨s, s', -, -, hwrite⟩ := u.written
  have w := Tree.Storable.wellNamed t u.fits.1
  obtain ⟨hwritten, hcount⟩ := Disk.exec_writeWith_counts _ t w htell hwrite
  have hfound := f.find?_set u.get u.file u.image
  rw [Tree.find?_eq_at? (u.path_ne_nil f)] at hfound
  refine ⟨?_, hcount.trans (u.fileCount f)⟩
  rw [hwritten, entryAt_eq_at? (u.path_ne_nil f)]
  refine Disk.toWrite_of_one w hfound fun ns b hns hb => ?_
  obtain ⟨-, hn, ⟨hsame, -⟩ | hbefore⟩ := u.file_of_contents f hb
  · exact absurd hsame hns
  · rwa [← entryAt_eq_at? hn]

variable (hfiles : (Disk.readTree P.disk root).result = .ok files)

include hfiles

theorem Updated.altered_folders (hdir : P.disk.isDir root = true) :
    Disk.Altered (fun place b => place = (root.below (P.workspace.outline.diskPath h)).place ∧ b = c)
      (P.workspace.outline.FolderPlace root) P.disk P'.disk := by
  refine (u.altered f hfiles).refine_made fun {place} ho hnone => ?_
  have hway : ¬ root.OnWay place := by
    intro hway
    rw [Disk.view_onWay hdir hway] at hnone
    cases hnone
  rcases ho with ⟨-, h⟩ | ⟨ns, v, hv, hvdir, rfl⟩
  · exact absurd h hway
  · by_cases hn : ns = []
    · subst hn
      exact absurd root.onWay_place hway
    · obtain ⟨x, hx, hfolder, hpath⟩ := u.folder_of_isDir f hv hvdir hn
      exact ⟨x, ns, hx, hfolder, hpath, rfl⟩

end

/-- What an update comes to on a project that was just loaded.  If it ends well, only the file of the
item is written, with the contents of the source, and missing directories of folders are made; no item
is dirty then and the image of the root is the document.  If no directory was taken for the same as a
different one, the file is on disk with its contents, it is counted as written unless the document had
them, and all other files are counted as unchanged.  If the update ends in an error, but for one in
writing, the disk and the document are as they were. -/
theorem update_writes_one_file {r : Except ProjectFailure Disk.Summary} {next' : ObjectId}
    {notices : List Notice} (hload : (load d next root).result = .ok (o, next'))
    (hx : exec (update held root item source) ⟨⟨o, next', notices⟩, d⟩ = (r, P')) :
    (∀ summary, r = .ok summary → ∃ h names c document walk,
      o.find? item = .ok (some h) ∧ o.diskNames h = .ok names ∧ d.contentsAt source = .ok c ∧
      o.walk Outline.root = .ok walk ∧ P'.workspace.outline.document = some document ∧
      Disk.Altered (fun place b => place = (root.below names).place ∧ b = c) (o.FolderPlace root)
        d P'.disk ∧
      (∀ x i, P'.workspace.outline.get? x = some i → i.dirty = false) ∧
      (∀ held', (exec (Workspace.image held' Outline.root) P'.workspace).1.map Tree.plain =
        .ok document.plain) ∧
      (Disk.tells (fun previous t => previous.fingerprint = t.fingerprint) o.document document =
          true →
        P'.disk.contentsAt (root.below names) = .ok c ∧
        summary.written = (if o.entryAt names = some c then 0 else 1) ∧
        summary.written + summary.unchanged = (walk.map Prod.fst).countP o.isFile)) ∧
    ∀ e, r = .error e → (∀ cause, e ≠ .error (.unwritable cause)) →
      P'.disk = d ∧ P'.workspace.outline.document = o.document := by
  obtain ⟨description, files, hdescription, hfiles, hbuild, -⟩ := load_eq_ok.mp hload
  have f := Description.fresh_of_build hbuild
  refine ⟨fun summary hr => ?_, fun e hr he => ?_⟩
  · subst hr
    obtain ⟨h, i, c, t, u⟩ := exec_update (P := ⟨⟨o, next', notices⟩, d⟩) f.sound hx
    obtain ⟨r₀, hr₀, -⟩ := f.tree.root
    obtain ⟨r₁, hr₁, -⟩ := u.sound.tree.root
    obtain ⟨b, hb⟩ := contentsAt_of_readDescription hdescription
    obtain ⟨node, hstat, -⟩ := Disk.readTree_eq_ok.mp hfiles
    refine ⟨h, o.diskPath h, c, t, _, u.found, f.tree.diskNames_of_get? f.attached u.get, u.read,
      f.tree.walk_eq hr₀, u.committed, u.altered_folders f hfiles (isDir_root hstat hb),
      fun x j hj => u.clean hj, fun held' => ?_, fun htell => ⟨u.stored f hfiles htell, ?_⟩⟩
    · exact (Workspace.exec_image u.sound hr₁ rfl).1.trans u.shown
    · exact u.counts f htell
  · subst hr
    exact exec_update_error (P := ⟨⟨o, next', notices⟩, d⟩) f.sound hx he

/-- A file that is not on disk yet is given the contents of another one, which is not touched. -/
theorem update_of_unwritten_file : ∃ (o : Outline) (next : ObjectId) (summary : Disk.Summary)
    (P : Project), (load ProjectRun.sample 0 (.ofString "p")).result = .ok (o, next) ∧
    exec (update [] (.ofString "p") "Package/b" (.ofString "p/a"))
      ⟨⟨o, next, []⟩, ProjectRun.sample⟩ = (.ok summary, P) ∧ summary = ⟨1, 1⟩ ∧
    P.disk.contentsAt ((Path.ofString "p").below ["b"]) = .ok [0x31] ∧
    ∀ x i, P.workspace.outline.get? x = some i → i.dirty = false := by
  obtain ⟨o, next, summary, P, hload, hx, hcheck⟩ := exists_update ProjectRun.sample (.ofString "p")
    "Package/b" (.ofString "p/a") (fun o P => leadsTo o "Package/b" ["b"] &&
      o.entryAt ["b"] == none &&
      ((o.walk Outline.root).toOption.map fun walk => (walk.map Prod.fst).countP o.isFile) ==
        some 2 &&
      P.workspace.outline.document.all
        (Disk.tells (fun previous t => previous.fingerprint = t.fingerprint) o.document))
    (by decide +kernel)
  simp only [Bool.and_eq_true, beq_iff_eq] at hcheck
  obtain ⟨⟨⟨hpath, hentry⟩, hwalk⟩, htell⟩ := hcheck
  obtain ⟨h, names, c, document, walk, hfound, hnames, hread, hwalk', hdocument, -, hclean, -, hdone⟩ :=
    (update_writes_one_file hload hx).1 summary rfl
  obtain rfl := names_of_leadsTo hpath hfound hnames
  obtain rfl : c = [0x31] := Except.ok.inj (hread.symm.trans (toOption_eq_some.mp (by decide +kernel)))
  rw [hdocument, Option.all_some] at htell
  obtain ⟨hstored, hwritten, hcount⟩ := hdone htell
  rw [hentry, if_neg (by simp)] at hwritten
  rw [hwalk'] at hwalk
  have htwo : (walk.map Prod.fst).countP o.isFile = 2 := by simpa [Except.toOption] using hwalk
  refine ⟨o, next, summary, P, hload, hx, ?_, hstored, hclean⟩
  obtain ⟨written, unchanged⟩ := summary
  simp only [Disk.Summary.mk.injEq] at hwritten hcount ⊢
  omega

end Project

end PackageOutline
