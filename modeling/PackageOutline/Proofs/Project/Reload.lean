import PackageOutline.Proofs.Disk.Rereading
import PackageOutline.Proofs.Outline.OnDocument
import PackageOutline.Proofs.Project.Runs

/-! # Loading again

An update of a project that was just loaded gives one file the contents of its source, writes the image
of the root and makes it the document (`exec_update`).  All that this alters on disk is the file and
missing directories (`Updated.altered`).  So the project can be loaded again and gives the same outline,
on a document that has the same files elsewhere.

`reload_after_update` says when the image of the new outline is the document that the update
committed: when the file is on disk with its contents, and no name on its path is one of version
control, which reading passes over.  Descriptions may declare such names
(`missing_after_reload`). -/

namespace PackageOutline

open Outline

namespace Project

variable {P P' : Project} {root source : Path} {item : String} {held : List SharedTree}
  {summary : Disk.Summary} {d : Disk} {o : Outline} {h : Handle} {i : Item} {c : Bytes} {t : SharedTree} {next : ObjectId}
  {files : FileTree}

/-! ### What an update does -/

theorem exec_target {r : Except ProjectFailure Handle} (hx : exec (target item) P = (r, P')) :
    P' = P ∧ ∀ h, r = .ok h → P.workspace.outline.find? item = .ok (some h) := by
  unfold target at hx
  rw [exec_bind_of_ok (exec_get P)] at hx
  split at hx
  · rename_i h' hfound
    obtain ⟨rfl, rfl⟩ := Prod.mk.inj hx
    exact ⟨rfl, fun h hh => Except.ok.inj hh ▸ hfound⟩
  · obtain ⟨rfl, rfl⟩ := Prod.mk.inj hx
    exact ⟨rfl, fun h hh => by cases hh⟩
  · obtain ⟨rfl, rfl⟩ := Prod.mk.inj hx
    exact ⟨rfl, fun h hh => by cases hh⟩

/-- What an update that ends well comes to: a file was given the contents of the source, and the image
of the root with these was written and made the document. -/
structure Updated (root : Path) (item : String) (source : Path) (P P' : Project)
    (summary : Disk.Summary) (h : Handle) (i : Item) (c : Bytes) (t : SharedTree) : Prop where
  found : P.workspace.outline.find? item = .ok (some h)
  read : P.disk.contentsAt source = .ok c
  get : P.workspace.outline.get? h = some i
  file : i.kind = .file
  image : (P.workspace.outline.set h { i with contents := some c }).plainImage Outline.root =
    .ok t.plain
  fits : t.Storable ∧ t.isDir = true
  committed : P'.workspace.outline.document = some t
  sound : P'.workspace.outline.Sound
  shown : P'.workspace.outline.plainImage Outline.root = .ok t.plain
  clean : ∀ {x j}, P'.workspace.outline.get? x = some j → j.dirty = false
  written : ∃ s s', s.disk = P.disk ∧ s'.disk = P'.disk ∧
    exec (Disk.writeTree t root P.workspace.outline.document) s = (.ok summary, s')

theorem setContents_eq_ok {o' : Outline} (so : o.Sound)
    (hx : exec (Edit.setContents h c) o = (.ok (), o')) : ∃ i, o.get? h = some i ∧
      i.kind = .file ∧ SameTree (o.set h { i with contents := some c }) o' ∧
      ∃ r, o'.get? Outline.root = some r ∧ r.dirty = true := by
  cases hi : o.get? h with
  | none =>
      have hread : exec ((Edit.read (·.item h)).adapt Failure.violation) o =
          (.error (.violation (.missing h)), o) := by
        rw [exec_adapt, Edit.exec_read, Outline.item, hi]
        rfl
      have hfail := hx.symm.trans (exec_bind_of_error hread)
      cases (Prod.mk.inj hfail).1
  | some i =>
      have so' := so.setContents hi hx
      rw [exec_setContents hi] at hx
      split at hx
      · rename_i hk
        have ag : AgreeOn Item.frame o (o.set h { i with contents := some c }) := .set hi rfl
        obtain ⟨l, hl⟩ := so.tree.exists_line so.attached hi
        obtain ⟨o₁, hmark, m⟩ := (so.tree.congr ag).exec_markDirty (ag.stem.line hl)
        rw [exec_adapt, hmark] at hx
        obtain ⟨-, rfl⟩ := Prod.mk.inj hx
        exact ⟨i, rfl, hk, m.tree, so'.root_dirty hmark⟩
      · cases (Prod.mk.inj hx).1

/-- An update ends with an error that leaves the disk and the document as they were, or comes to a save
after a file was given the contents of the source. -/
theorem exec_update_cases {r : Except ProjectFailure Disk.Summary} (so : P.workspace.outline.Sound)
    (hx : exec (update held root item source) P = (r, P')) :
    ((∃ e, r = .error e) ∧ P'.disk = P.disk ∧
        P'.workspace.outline.document = P.workspace.outline.document) ∨
      ∃ h i c Q, P.workspace.outline.find? item = .ok (some h) ∧ P.disk.contentsAt source = .ok c ∧
        P.workspace.outline.get? h = some i ∧ i.kind = .file ∧ Q.disk = P.disk ∧
        Q.workspace.outline.Sound ∧
        SameTree (P.workspace.outline.set h { i with contents := some c }) Q.workspace.outline ∧
        (∃ j, Q.workspace.outline.get? Outline.root = some j ∧ j.dirty = true) ∧
        exec (save held root) Q = (r, P') := by
  unfold update at hx
  rcases exec_bind_cases hx with ⟨e, htarget, rfl⟩ | ⟨h, P₁, htarget, hrest⟩
  · obtain ⟨rfl, -⟩ := exec_target htarget
    exact .inl ⟨⟨e, rfl⟩, rfl, rfl⟩
  · obtain ⟨rfl, hfound⟩ := exec_target htarget
    rw [exec_bind_of_ok (exec_get P₁)] at hrest
    split at hrest
    · obtain ⟨rfl, rfl⟩ := Prod.mk.inj hrest
      exact .inl ⟨⟨_, rfl⟩, rfl, rfl⟩
    · rename_i c hread
      rcases hedit : exec (Workspace.edit (Edit.setContents h c)) P₁.workspace with ⟨r', V⟩
      have hset := exec_onOutline (Workspace.edit (Edit.setContents h c)) P₁
      rw [hedit] at hset
      have hedit := Workspace.exec_of_edit hedit
      cases r' with
      | error e =>
          rw [exec_bind_of_error hset] at hrest
          obtain ⟨rfl, rfl⟩ := Prod.mk.inj hrest
          exact .inl ⟨⟨_, rfl⟩, rfl, Edit.setContents_document h c hedit⟩
      | ok u =>
          obtain ⟨i, hi, hk, htree, hroot⟩ := setContents_eq_ok so hedit
          let path := (V.outline.relativePath h).toOption.getD ""
          obtain ⟨notices, hreport⟩ := exec_report .debug .items
            s!"Updating '{path}' with {c.length} bytes" { P₁ with workspace := V }
          rw [exec_bind_of_ok hset, exec_bind_of_ok (exec_get _), exec_bind_of_ok hreport] at hrest
          exact .inr ⟨h, i, c, ⟨{ V with notices }, P₁.disk⟩, hfound h rfl, hread, hi, hk, rfl,
            so.setContents hi hedit, htree, hroot, hrest⟩

/-- An update that ends well commits what it wrote. -/
theorem exec_update (so : P.workspace.outline.Sound)
    (hx : exec (update held root item source) P = (.ok summary, P')) :
    ∃ h i c t, Updated root item source P P' summary h i c t := by
  rcases exec_update_cases so hx with
    ⟨⟨_, h⟩, -⟩ | ⟨h, i, c, Q, hfound, hread, hi, hk, hdisk, soQ, htree, ⟨j, hj, hdirty⟩, hsave⟩
  · cases h
  · have ag : AgreeOn Item.frame P.workspace.outline
        (P.workspace.outline.set h { i with contents := some c }) := .set hi rfl
    cases exec_save soQ hsave with
    | nothing hr hclean _ _ =>
        rw [hj] at hr
        rw [← Option.some.inj hr, hdirty] at hclean
        cases hclean
    | @committed W t s s' _ hrefresh ho hwrite hd hd' =>
        have hkept := (Workspace.exec_refresh soQ hj hrefresh).kept.cleared.tree
        obtain ⟨soW, himage, hclean⟩ := Workspace.refresh_root soQ hrefresh
        obtain ⟨rW, hrW, -⟩ := soW.tree.root
        have hcommit := soW.commit himage
        have hshown := soW.plainImage_commit himage hrW himage
        obtain ⟨r₀, hr₀, -⟩ := (so.tree.congr ag).root
        rw [(htree.trans hkept).plainImage (so.tree.congr ag) (so.attached.congr ag.links) hr₀]
          at himage
        refine ⟨h, i, c, t, hfound, hread, hi, hk, himage, storable_of_refresh soQ hrefresh, ?_,
          ?_, ?_, ?_, s, s', hd.symm.trans hdisk, hd'.symm, ?_⟩
        · rw [ho]
        · exact ho ▸ hcommit
        · exact ho ▸ hshown
        · rw [ho]
          exact fun {x k} hk => hclean hk
        · rw [← hwrite]
          exact congrArg (fun document => exec (Disk.writeTree t root document) s)
            htree.document.symm

theorem exec_update_error {e : ProjectFailure} (so : P.workspace.outline.Sound)
    (hx : exec (update held root item source) P = (.error e, P'))
    (he : ∀ cause, e ≠ .error (.unwritable cause)) :
    P'.disk = P.disk ∧ P'.workspace.outline.document = P.workspace.outline.document := by
  rcases exec_update_cases so hx with
    ⟨-, hsame⟩ | ⟨h, i, c, Q, -, -, -, -, hdisk, soQ, htree, -, hsave⟩
  · exact hsame
  · cases exec_save soQ hsave with
    | refused _ _ _ _ ho hd => exact ⟨hd.trans hdisk, ho.trans htree.document⟩
    | failed => exact absurd rfl (he _)

/-! ### What changes on disk -/

theorem contents_of_document {ns : List String} {b : Bytes}
    (hfiles : (Disk.readTree d root).result = .ok files) (hn : ns ≠ []) (next : ObjectId) :
    ((some (files.number next).1).bind (·.find? ns)).bind Tree.contents? = some b ↔
      Disk.Shown ns ∧ d.view (root.place ++ ns.map Utf8.encode) = .file b := by
  rw [Option.bind_some, Tree.find?_eq_at? hn, ← Tree.contents_at?_plain, Tree.plain_number,
    Disk.contents_of_readTree hfiles]

theorem isDir_root {d₀ : Disk} {node : DiskNode} {b : Bytes} (hstat : d₀.stat root = .ok node)
    (hb : d.contentsAt (descriptionPath root) = .ok b) : d.isDir root = true := by
  obtain ⟨_, hr, -⟩ := Disk.contentsAt_eq_ok.mp hb
  exact Disk.isDir_of_join (Disk.checkPath_of_stat hstat) (n := descriptionName) (by decide) hr

section

variable (u : Updated root item source P P' summary h i c t)

include u

theorem Updated.grown (hdir : P.disk.isDir root = true) : Disk.Grown root P.disk P'.disk := by
  obtain ⟨s, s', hd, hd', hwrite⟩ := u.written
  rw [← hd] at hdir
  have g := Disk.exec_writeWith_grown _ root t u.fits.1 Path.names_nil hdir hwrite
  rwa [hd, hd'] at g

variable (f : P.workspace.outline.Fresh (some (files.number next).1))

include f

theorem Updated.names : Path.Names (P.workspace.outline.diskPath h) := by
  obtain ⟨l, hl⟩ := f.tree.exists_line f.attached u.get
  exact f.tree.names_diskPath hl

theorem Updated.path_ne_nil : P.workspace.outline.diskPath h ≠ [] :=
  f.tree.diskPath_ne_nil f.attached u.get (by rw [u.file]; rfl)

theorem Updated.file_of_contents {ns : List String} {b : Bytes}
    (hb : (t.at? ns).bind Tree.contents? = some b) : Path.Names ns ∧ ns ≠ [] ∧
      (ns = P.workspace.outline.diskPath h ∧ b = c ∨
        (P.workspace.outline.document.bind (·.find? ns)).bind Tree.contents? = some b) := by
  obtain ⟨v, hv, hvb⟩ := Option.bind_eq_some_iff.mp hb
  have hn : ns ≠ [] := by
    rintro rfl
    obtain rfl := Option.some.inj hv
    have hdir := u.fits.2
    cases t with
    | file l b => cases hdir
    | dir l es => cases hvb
  refine ⟨u.fits.1.names hv, hn, ?_⟩
  obtain ⟨w, attached, -⟩ := f.complete_set u.get u.image
  rw [← Tree.find?_eq_at? hn] at hv
  obtain ⟨x, hx, hfile, hpath, hdata⟩ :=
    (w.exists_file_iff attached).mp ((w.find?_root attached u.image hn).mp ⟨v, hv, hvb⟩)
  obtain ⟨k, hk⟩ := w.live_of_reachable ((w.mem_family_root attached).mp hx)
  rw [w.diskNames_of_get? attached hk] at hpath
  obtain rfl := Except.ok.inj hpath
  by_cases hxh : x = h
  · subst hxh
    obtain ⟨st, hc⟩ := f.tree.stays_setContents f.attached u.get c u.get
    rw [if_pos rfl] at hc
    rw [hc] at hdata
    exact .inl ⟨st.path, (Option.some.inj hdata).symm⟩
  · rw [get?_set_of_ne u.get _ hxh] at hk
    obtain ⟨st, hsame⟩ := f.tree.stays_setContents f.attached u.get c hk
    rw [hsame, if_neg hxh, f.data hk, ← st.path, ← f.document] at hdata
    exact .inr hdata

variable (hfiles : (Disk.readTree P.disk root).result = .ok files)

include hfiles

/-- An update of what was loaded writes one file, and makes directories. -/
theorem Updated.altered :
    Disk.Altered (fun place b => place = (root.below (P.workspace.outline.diskPath h)).place ∧ b = c)
      (Disk.Opened t root) P.disk P'.disk := by
  obtain ⟨s, s', hd, hd', hwrite⟩ := u.written
  have a := Disk.exec_writeWith_altered _ t u.fits.1 hwrite
  rw [hd, hd'] at a
  refine a.refine fun {place b} hw => ?_
  obtain ⟨ns, hb, rfl⟩ := hw
  obtain ⟨hns, hn, ⟨rfl, rfl⟩ | hbefore⟩ := u.file_of_contents f hb
  · exact .inl ⟨rfl, rfl⟩
  · rw [f.document, contents_of_document hfiles hn] at hbefore
    rw [root.place_below hns]
    exact .inr hbefore.2

theorem Updated.sameFiles {files' : FileTree}
    (hfiles' : (Disk.readTree P'.disk root).result = .ok files') (next' : ObjectId) :
    SameFilesBut (P.workspace.outline.diskPath h) (some (files.number next).1)
      (some (files'.number next').1) := by
  intro ns b hne hb
  by_cases hn : ns = []
  · subst hn
    cases hb
  · obtain ⟨hshown, hview⟩ := (contents_of_document hfiles hn next).mp hb
    refine (contents_of_document hfiles' hn next').mpr ⟨hshown, ?_⟩
    rcases u.altered f hfiles (root.place ++ ns.map Utf8.encode) with
      hsame | ⟨_, ⟨hplace, -⟩, -⟩ | ⟨-, hnone, -⟩
    · exact hsame.trans hview
    · rw [root.place_below (u.names f)] at hplace
      exact absurd (Utf8.map_encode_injective (List.append_cancel_left hplace)) hne
    · rw [hview] at hnone
      cases hnone

theorem Updated.contentsAt {b : Bytes} {ns : List String} (hns : Path.Names ns)
    (hne : P.workspace.outline.diskPath h ≠ ns)
    (hb : P.disk.contentsAt (root.below ns) = .ok b) :
    P'.disk.contentsAt (root.below ns) = .ok b := by
  obtain ⟨place, hr, -⟩ := Disk.contentsAt_eq_ok.mp hb
  refine (u.altered f hfiles).toExtends.contentsAt hr ?_ hb
  rintro ⟨_, hplace, -⟩
  rw [Disk.resolve_eq_place hr] at hplace
  exact hne (Path.names_of_place hns (u.names f) hplace).symm

theorem Updated.stored (htell : Disk.tells (fun previous t => previous.fingerprint = t.fingerprint)
      P.workspace.outline.document t = true) :
    P'.disk.contentsAt (root.below (P.workspace.outline.diskPath h)) = .ok c := by
  obtain ⟨s, s', hd, hd', hwrite⟩ := u.written
  have hfound := f.find?_set u.get u.file u.image
  rw [Tree.find?_eq_at? (u.path_ne_nil f)] at hfound
  have stored := Disk.exec_writeWith_ok _ root t u.fits.1 Path.names_nil htell hwrite hfound
  rw [hd, hd', List.nil_append] at stored
  unfold Disk.Stored at stored
  split at stored
  · rename_i hsame
    rw [f.document, Option.bind_some, ← Tree.contents_at?_plain, Tree.plain_number] at hsame
    exact stored c (Disk.contentsAt_of_readTree hfiles (u.names f) hsame)
  · exact stored

end

/-! ### Loading again -/

theorem contentsAt_of_readDescription {description : Description}
    (h : (readDescription d root).result = .ok description) :
    ∃ b, d.contentsAt (descriptionPath root) = .ok b := by
  obtain ⟨_, -, h⟩ := Traced.bind_eq_ok.mp h
  obtain ⟨b, hb, -⟩ := Traced.bind_eq_ok.mp h
  exact ⟨b, mapError_eq_ok.mp hb⟩

theorem readDescription_congr {d' : Disk}
    (h : d'.contentsAt (descriptionPath root) = d.contentsAt (descriptionPath root)) :
    readDescription d' root = readDescription d root := by
  simp only [readDescription, h]

section

variable (u : Updated root item source P P' summary h i c t)
  (f : P.workspace.outline.Fresh (some (files.number next).1))
  (hfiles : (Disk.readTree P.disk root).result = .ok files)

include u f hfiles

/-- When the description was left alone, the project can be loaded again, and gives the same outline on
the files that are there now. -/
theorem Updated.load_again {description : Description}
    (hdescription : (readDescription P.disk root).result = .ok description)
    (hbuild : (description.build (some (files.number next).1)).result = .ok P.workspace.outline)
    (htext : ∀ node, P.disk.stat root = .ok node → Disk.Textual node)
    (hother : P.workspace.outline.diskPath h ≠ [descriptionName]) (again : ObjectId) :
    ∃ files', (Disk.readTree P'.disk root).result = .ok files' ∧
      (load P'.disk again root).result = .ok (P.workspace.outline.onDocument
        (some (files'.number again).1), (files'.number again).2) := by
  obtain ⟨b, hb⟩ := contentsAt_of_readDescription hdescription
  obtain ⟨node, hstat, -⟩ := Disk.readTree_eq_ok.mp hfiles
  have hdir := isDir_root hstat hb
  have hb' : P'.disk.contentsAt (descriptionPath root) = .ok b :=
    u.contentsAt f hfiles (Path.names_singleton (n := descriptionName) (by decide)) hother hb
  rw [← readDescription_congr (hb'.trans hb.symm)] at hdescription
  obtain ⟨files', hfiles'⟩ := Disk.readTree_again hfiles hdir htext (u.altered f hfiles)
    (fun place => by
      rintro (⟨_, rfl, -⟩ | ⟨-, hway⟩ | ⟨ns, v, hv, -, rfl⟩)
      · exact .inr ⟨_, u.names f, rfl⟩
      · exact .inl hway
      · exact .inr ⟨ns, u.fits.1.names hv, rfl⟩)
    (u.grown hdir)
  exact ⟨files', hfiles', load_eq_ok.mpr ⟨description, files', hdescription, hfiles',
    Description.build_onDocument hbuild _, rfl⟩⟩

variable {files' : FileTree} (hfiles' : (Disk.readTree P'.disk root).result = .ok files')
  (again : ObjectId)

include hfiles'

/-- The image on the files that are there now is the document that the update committed exactly if the
file is among them. -/
theorem Updated.plainImage_again
    (hshown : ∀ n ∈ P.workspace.outline.diskPath h, Disk.isIgnored n = false) :
    (P.workspace.outline.onDocument (some (files'.number again).1)).plainImage Outline.root =
        .ok t.plain ↔
      P'.disk.contentsAt (root.below (P.workspace.outline.diskPath h)) = .ok c := by
  rw [f.plainImage_onDocument u.get u.file u.image (u.sameFiles f hfiles hfiles' again),
    contents_of_document hfiles' (u.path_ne_nil f)]
  constructor
  · rintro ⟨_, hview⟩
    exact Disk.contentsAt_of_readTree hfiles' (u.names f)
      ((Disk.contents_of_readTree hfiles').mpr ⟨hshown, hview⟩)
  · intro hc
    rw [← root.place_below (u.names f)]
    exact ⟨hshown, Disk.view_of_contentsAt hc⟩

/-- A file with a name of version control on its path is not read, so the image cannot be made. -/
theorem Updated.missing_again {n : String} (hn : n ∈ P.workspace.outline.diskPath h)
    (hignored : Disk.isIgnored n = true) :
    (P.workspace.outline.onDocument (some (files'.number again).1)).plainImage Outline.root =
      .error (.error (.missingData (.ofNames (P.workspace.outline.diskPath h)))) := by
  refine f.missing_onDocument u.get u.file u.image (u.sameFiles f hfiles hfiles' again) ?_
  refine Option.eq_none_iff_forall_ne_some.mpr fun b hb => ?_
  have hshown := ((contents_of_document hfiles' (u.path_ne_nil f) again).mp hb).1 n hn
  rw [hignored] at hshown
  cases hshown

end

/-- After an update that ended well on a project that was just loaded, unless it replaced the
description, the project can be loaded again.  When no name on the path of the file is one of version
control, the image of the new outline is the document that was committed exactly if the file is on disk
with its contents; it always is when no directory was taken for the same as a different one.  With such
a name the image cannot be made, for want of the file. -/
theorem reload_after_update {next' : ObjectId} {notices : List Notice} {summary : Disk.Summary}
    (hload : (load d next root).result = .ok (o, next'))
    (htext : ∀ node, d.stat root = .ok node → Disk.Textual node)
    (hx : exec (update held root item source) ⟨⟨o, next', notices⟩, d⟩ = (.ok summary, P')) :
    ∃ h names c document, o.find? item = .ok (some h) ∧ o.diskNames h = .ok names ∧
      d.contentsAt source = .ok c ∧ P'.workspace.outline.document = some document ∧
      (names ≠ [descriptionName] → ∀ again, ∃ o' again',
        (load P'.disk again root).result = .ok (o', again') ∧ ∀ held' notices',
          ((∀ n ∈ names, Disk.isIgnored n = false) →
            ((exec (Workspace.image held' Outline.root) ⟨o', again', notices'⟩).1.map Tree.plain =
              .ok document.plain ↔ P'.disk.contentsAt (root.below names) = .ok c)) ∧
          ((∃ n ∈ names, Disk.isIgnored n = true) →
            (exec (Workspace.image held' Outline.root) ⟨o', again', notices'⟩).1 =
              .error (.error (.missingData (.ofNames names))))) ∧
      (Disk.tells (fun previous t => previous.fingerprint = t.fingerprint) o.document document =
        true → P'.disk.contentsAt (root.below names) = .ok c) := by
  obtain ⟨description, files, hdescription, hfiles, hbuild, -⟩ := load_eq_ok.mp hload
  have f := Description.fresh_of_build hbuild
  obtain ⟨h, i, c, t, u⟩ := exec_update (P := ⟨⟨o, next', notices⟩, d⟩) f.sound hx
  obtain ⟨l, hl⟩ := f.tree.exists_line f.attached u.get
  refine ⟨h, o.diskPath h, c, t, u.found, f.tree.diskNames_eq_diskPath hl, u.read, u.committed,
    fun hother again => ?_, u.stored f hfiles⟩
  obtain ⟨files', hfiles', hagain⟩ := u.load_again f hfiles hdescription hbuild htext hother again
  refine ⟨_, _, hagain, fun held' notices' => ?_⟩
  have f' := f.onDocument (some (files'.number again).1)
  obtain ⟨r, hr, -⟩ := f'.tree.root
  have himage : (exec (Workspace.image held' Outline.root)
      ⟨o.onDocument (some (files'.number again).1), (files'.number again).2, notices'⟩).1.map
        Tree.plain = _ := (Workspace.exec_image f'.sound hr rfl).1
  refine ⟨fun hshown => ?_, fun ⟨n, hn, hignored⟩ => ?_⟩
  · rw [himage]
    exact u.plainImage_again f hfiles hfiles' again hshown
  · exact map_eq_error.mp (himage.trans (u.missing_again f hfiles hfiles' again hn hignored))

/-- A project with one file, which is not on disk yet, beside contents for it. -/
def unwritten (name : String) : Disk where
  top := .dir [(Utf8.encode "p", .dir [(Utf8.encode "outline.yaml",
    .file (Utf8.encode ("package: P\ngroups: \x7bPackage: [file: " ++ name ++ "]\x7d")))]),
    (Utf8.encode "s", .file [0x31])]

theorem textual_unwritten (name : String) (node : DiskNode)
    (h : (unwritten name).stat (.ofString "p") = .ok node) : Disk.Textual node := by
  have hnode : (unwritten name).stat (.ofString "p") = .ok (.dir [(Utf8.encode "outline.yaml",
      .file (Utf8.encode ("package: P\ngroups: \x7bPackage: [file: " ++ name ++ "]\x7d")))]) := rfl
  rw [hnode] at h
  obtain rfl := Except.ok.inj h
  refine Disk.textual_dir fun e he => ?_
  rw [List.mem_singleton.mp he]
  exact ⟨⟨_, rfl⟩, Disk.textual_file _⟩

theorem exists_update (d : Disk) (root : Path) (item : String) (source : Path)
    (check : Outline → Project → Bool)
    (h : ((load d 0 root).result.toOption.bind fun x =>
      let r := exec (update [] root item source) ⟨⟨x.1, x.2, []⟩, d⟩
      r.1.toOption.map fun summary => (x, summary, r.2)).any (fun z => check z.1.1 z.2.2) = true) :
    ∃ o next summary P, (load d 0 root).result = .ok (o, next) ∧
      exec (update [] root item source) ⟨⟨o, next, []⟩, d⟩ = (.ok summary, P) ∧
        check o P = true := by
  obtain ⟨⟨⟨o, next⟩, summary, P⟩, hall, hcheck⟩ := (Option.any_eq_true ..).mp h
  obtain ⟨x, hload, hall⟩ := Option.bind_eq_some_iff.mp hall
  obtain ⟨summary', hupdate, heq⟩ := Option.map_eq_some_iff.mp hall
  cases heq
  exact ⟨o, next, summary, _, toOption_eq_some.mp hload, Prod.ext (toOption_eq_some.mp hupdate) rfl,
    hcheck⟩

theorem exists_updated (name : String) (check : Outline → Project → Bool)
    (h : ((load (unwritten name) 0 (.ofString "p")).result.toOption.bind fun x =>
      let r := exec (update [] (.ofString "p") ("Package/" ++ name) (.ofString "s"))
        ⟨⟨x.1, x.2, []⟩, unwritten name⟩
      r.1.toOption.map fun summary => (x, summary, r.2)).any (fun z => check z.1.1 z.2.2) = true) :
    ∃ o next summary P, (load (unwritten name) 0 (.ofString "p")).result = .ok (o, next) ∧
      exec (update [] (.ofString "p") ("Package/" ++ name) (.ofString "s"))
        ⟨⟨o, next, []⟩, unwritten name⟩ = (.ok summary, P) ∧ check o P = true :=
  exists_update _ _ _ _ check h

/-- Whether an item has names on disk. -/
def leadsTo (o : Outline) (item : String) (names : List String) : Bool :=
  (o.find? item).toOption.any fun h => h.any fun h => (o.diskNames h).toOption == some names

theorem names_of_leadsTo {names ns : List String} (h : leadsTo o item names = true) {f : Handle}
    (hf : o.find? item = .ok (some f)) (hns : o.diskNames f = .ok ns) : ns = names := by
  unfold leadsTo at h
  rw [hf] at h
  simpa [Except.toOption, hns] using h

/-- A new file is on disk after an update, and in the document when the project is loaded again. -/
theorem reload_after_update_of_new_file : ∃ (o o' : Outline) (next again : ObjectId)
    (summary : Disk.Summary) (P : Project) (document : SharedTree),
    (load (unwritten "a") 0 (.ofString "p")).result = .ok (o, next) ∧
    exec (update [] (.ofString "p") "Package/a" (.ofString "s")) ⟨⟨o, next, []⟩, unwritten "a"⟩ =
      (.ok summary, P) ∧
    P.disk.contentsAt ((Path.ofString "p").below ["a"]) = .ok [0x31] ∧
    P.workspace.outline.document = some document ∧
    (load P.disk 0 (.ofString "p")).result = .ok (o', again) ∧
    (exec (Workspace.image [] Outline.root) ⟨o', again, []⟩).1.map Tree.plain =
      .ok document.plain := by
  obtain ⟨o, next, summary, P, hload, hx, hcheck⟩ := exists_updated "a"
    (fun o P => leadsTo o "Package/a" ["a"] && P.workspace.outline.document.all
      (Disk.tells (fun previous t => previous.fingerprint = t.fingerprint) o.document))
    (by decide +kernel)
  obtain ⟨hpath, htell⟩ := (Bool.and_eq_true ..).mp hcheck
  obtain ⟨h, names, c, document, hfound, hnames, hread, hdocument, hreload, hstored⟩ :=
    reload_after_update hload (textual_unwritten "a") hx
  obtain rfl := names_of_leadsTo hpath hfound hnames
  obtain rfl : c = [0x31] := Except.ok.inj (hread.symm.trans (toOption_eq_some.mp (by decide +kernel)))
  rw [hdocument, Option.all_some] at htell
  have hc := hstored htell
  obtain ⟨o', again, hagain, himages⟩ := hreload (by decide) 0
  exact ⟨o, o', next, again, summary, P, document, hload, hx, hc, hdocument, hagain,
    ((himages [] []).1 (by decide)).mpr hc⟩

/-- A file with the name of version control metadata is written by an update, but not found when the
project is loaded again. -/
theorem missing_after_reload : ∃ (o o' : Outline) (next again : ObjectId) (summary : Disk.Summary)
    (P : Project) (document : SharedTree),
    (load (unwritten ".hg") 0 (.ofString "p")).result = .ok (o, next) ∧
    (∀ node, (unwritten ".hg").stat (.ofString "p") = .ok node → Disk.Textual node) ∧
    exec (update [] (.ofString "p") "Package/.hg" (.ofString "s")) ⟨⟨o, next, []⟩, unwritten ".hg"⟩ =
      (.ok summary, P) ∧
    leadsTo o "Package/.hg" [".hg"] = true ∧
    P.disk.contentsAt ((Path.ofString "p").below [".hg"]) = .ok [0x31] ∧
    P.workspace.outline.document = some document ∧
    (document.find? [".hg"]).bind Tree.contents? = some [0x31] ∧
    (load P.disk 0 (.ofString "p")).result = .ok (o', again) ∧
    (exec (Workspace.image [] Outline.root) ⟨o', again, []⟩).1 =
      .error (.error (.missingData (.ofNames [".hg"]))) := by
  obtain ⟨o, next, summary, P, hload, hx, hcheck⟩ := exists_updated ".hg"
    (fun o P => leadsTo o "Package/.hg" [".hg"] &&
      (P.disk.contentsAt ((Path.ofString "p").below [".hg"])).toOption == some [0x31] &&
      P.workspace.outline.document.any (fun t =>
        (t.find? [".hg"]).bind Tree.contents? == some [0x31]) &&
      (load P.disk 0 (.ofString "p")).result.toOption.any (fun y =>
        match (exec (Workspace.image [] Outline.root) ⟨y.1, y.2, []⟩).1 with
        | .ok _ => false
        | .error e => e = .error (.missingData (.ofNames [".hg"])))) (by decide +kernel)
  simp only [Bool.and_eq_true, beq_iff_eq] at hcheck
  obtain ⟨⟨⟨hpath, hc⟩, hdocument⟩, hagain⟩ := hcheck
  obtain ⟨document, hdocument, hentry⟩ := (Option.any_eq_true ..).mp hdocument
  obtain ⟨⟨o', again⟩, hagain, himage⟩ := (Option.any_eq_true ..).mp hagain
  refine ⟨o, o', next, again, summary, P, document, hload, textual_unwritten ".hg", hx, hpath,
    toOption_eq_some.mp hc, hdocument, by simpa using hentry, toOption_eq_some.mp hagain, ?_⟩
  split at himage
  · cases himage
  · rename_i e he
    rw [he, of_decide_eq_true himage]

end Project

end PackageOutline
