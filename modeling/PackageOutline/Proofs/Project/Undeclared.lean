import PackageOutline.Proofs.Project.Retrying
import PackageOutline.Proofs.Project.Snapshots

/-! # Files that are not declared

A project may have files on disk that no item stands for.  They are read with the others, so they are in
the document, and an item that is added for one of them finds its contents there.

A save that has something to write makes the tree of the outline the document.  The file stays on disk,
but the document does not have it any longer, and an item that is added for it then has no data
(`UndeclaredRun.image_of_file`). -/

namespace PackageOutline

open Outline

namespace Outline

variable {o o' : Outline} {names : List String}

/-- Whether some file has a path on disk. -/
def Declares (o : Outline) (names : List String) : Prop :=
  ∃ f, o.isFile f = true ∧ o.diskNames f = .ok names

theorem SameTree.declares (st : SameTree o o') (w : o.WellFormed) (a : o.Attached)
    (h : o'.Declares names) : o.Declares names := by
  obtain ⟨f, hfile, hnames⟩ := h
  obtain ⟨j, hj, -⟩ := (Option.any_eq_true ..).mp hfile
  obtain ⟨i, hi, -⟩ := st.agree.symm.get?_eq_some hj
  have hkind := isFile_congr ((st.agree.comp Item.kind fun _ => rfl).get f)
  rw [(st.wellFormed w).diskNames_of_get? (st.attached a) hj, st.diskPath w a hi] at hnames
  exact ⟨f, hkind.symm.trans hfile, by rw [w.diskNames_of_get? a hi, hnames]⟩

theorem WellFormed.declares (w : o.WellFormed) (a : o.Attached) {t : SharedTree} {c : Bytes}
    (ht : o.plainImage Outline.root = .ok t.plain)
    (hc : (t.find? names).bind Tree.contents? = some c) : o.Declares names := by
  obtain ⟨f, -, hfile, hnames, -⟩ :=
    ((w.shows a ht).files names c).mp (Option.bind_eq_some_iff.mp hc)
  exact ⟨f, hfile, hnames⟩

/-- Whether no folder or file has a path at or below some names. -/
def Avoids (o : Outline) (names : List String) : Prop :=
  ∀ x ms, o.isOnDisk x = true → o.diskNames x = .ok ms → ¬ names <+: ms

theorem Avoids.not_declares (h : o.Avoids names) : ¬ o.Declares names := by
  rintro ⟨f, hfile, hnames⟩
  exact h f names (isOnDisk_of_isFile hfile) hnames List.prefix_rfl

end Outline

/-- The projects that a project comes to from loading it on, when nobody else changes the disk, saves end
well and save no folder or file at or below some names; and whether a save had something to write. -/
inductive UndeclaredRun (root : Path) (d : Disk) (names : List String) : Bool → Project → Prop
  | load {o : Outline} {next next' : ObjectId} {notices : List Notice} :
      (Project.load d next root).result = .ok (o, next') →
        UndeclaredRun root d names false ⟨⟨o, next', notices⟩, d⟩
  | work {saved : Bool} {P : Project} {W : Workspace} : UndeclaredRun root d names saved P →
      Worked P.workspace W → UndeclaredRun root d names saved ⟨W, P.disk⟩
  | save {saved : Bool} {P P' : Project} {held : List SharedTree} {summary : Disk.Summary} {r : Item} :
      UndeclaredRun root d names saved P → P.workspace.outline.Avoids names →
      P.workspace.outline.get? Outline.root = some r →
      exec (Project.save held root) P = (.ok summary, P') →
        UndeclaredRun root d names (saved || r.dirty) P'

namespace Project

variable {P P' : Project} {root : Path} {held : List SharedTree} {names : List String} {c : Bytes}
  {r : Item} {summary : Disk.Summary}

theorem sound_of_save (so : P.workspace.outline.Sound)
    (hx : exec (save held root) P = (.ok summary, P')) : P'.workspace.outline.Sound := by
  cases exec_save so hx with
  | nothing _ _ ho _ => exact ho ▸ so
  | committed hrefresh ho _ _ _ =>
      obtain ⟨so', ht, -⟩ := Workspace.refresh_root so hrefresh
      exact ho ▸ so'.commit ht

/-- A save leaves a file on disk that is not declared.  If there was something to write, the document does
not have the file afterwards, otherwise it is as it was. -/
theorem save_of_undeclared (so : P.workspace.outline.Sound)
    (hnot : ¬ P.workspace.outline.Declares names) (hnames : Path.Names names) (hne : names ≠ [])
    (hr : P.workspace.outline.get? Outline.root = some r)
    (hx : exec (save held root) P = (.ok summary, P'))
    (hc : P.disk.contentsAt (root.below names) = .ok c) :
    P'.disk.contentsAt (root.below names) = .ok c ∧
      P'.workspace.outline.entryAt names =
        if r.dirty then none else P.workspace.outline.entryAt names := by
  cases exec_save so hx with
  | nothing hr' hclean ho hd =>
      rw [hr] at hr'
      obtain rfl := Option.some.inj hr'
      rw [ho, hd, hclean]
      exact ⟨hc, rfl⟩
  | @committed W t s s' _ hrefresh ho hwrite hd hd' =>
      have R := Workspace.exec_refresh so hr hrefresh
      have hdirty : r.dirty = true := by
        cases hdirty : r.dirty with
        | true => rfl
        | false => cases (R.idle hr hdirty).1
      obtain ⟨soW, ht, -⟩ := Workspace.refresh_root so hrefresh
      have hnone : ∀ b, (t.find? names).bind Tree.contents? ≠ some b := by
        intro b hb
        exact hnot (R.kept.cleared.tree.declares so.tree so.attached
          (soW.tree.declares soW.attached ht hb))
      refine ⟨?_, ?_⟩
      · obtain ⟨st, -⟩ := storable_of_refresh so hrefresh
        have a := Disk.exec_writeWith_altered _ t st hwrite
        obtain ⟨place, hresolve, -⟩ := Disk.contentsAt_eq_ok.mp hc
        rw [hd] at hc hresolve
        rw [hd']
        refine a.toExtends.contentsAt hresolve ?_ hc
        rintro ⟨b, ns, hb, hplace⟩
        obtain ⟨u, hu, -⟩ := Option.bind_eq_some_iff.mp hb
        rw [Disk.resolve_eq_place hresolve] at hplace
        obtain rfl := Path.names_of_place hnames (st.names hu) hplace
        rw [← Tree.find?_eq_at? hne] at hb
        exact hnone b hb
      · rw [ho, hdirty, if_pos rfl]
        exact Option.eq_none_iff_forall_ne_some.mpr hnone

end Project

namespace UndeclaredRun

variable {root : Path} {d : Disk} {names : List String} {saved : Bool} {P : Project} {c : Bytes}

theorem sound (run : UndeclaredRun root d names saved P) : P.workspace.outline.Sound := by
  induction run with
  | load hload =>
      obtain ⟨_, _, -, -, hbuild, -⟩ := Project.load_eq_ok.mp hload
      exact (Description.fresh_of_build hbuild).sound
  | work _ hwork ih => exact hwork.sound ih
  | save _ _ _ hx ih => exact Project.sound_of_save ih hx

/-- On all runs the file is on disk with its contents, and in the document until something was saved. -/
theorem kept (run : UndeclaredRun root d names saved P) (hnames : Path.Names names) (hne : names ≠ [])
    (hfound : Project.Found d root names c) : P.disk.contentsAt (root.below names) = .ok c ∧
      P.workspace.outline.entryAt names = if saved then none else some c := by
  have hc : d.contentsAt (root.below names) = .ok c := by
    rw [Path.below_eq_join root hnames hne]
    exact hfound.2
  induction run with
  | load hload =>
      obtain ⟨description, files, -, hfiles, hbuild, -⟩ := Project.load_eq_ok.mp hload
      have f := Description.fresh_of_build hbuild
      refine ⟨hc, ?_⟩
      unfold entryAt
      rw [f.document]
      refine (Project.contents_of_document hfiles hne _).mpr ⟨hfound.1, ?_⟩
      rw [← root.place_below hnames]
      exact Disk.view_of_contentsAt hc
  | work run hwork ih =>
      obtain ⟨hdisk, hentry⟩ := ih
      refine ⟨hdisk, ?_⟩
      rw [← hentry]
      unfold entryAt
      rw [hwork.document run.sound]
  | @save saved _ _ _ _ r run havoids hr hx ih =>
      obtain ⟨hdisk, hentry⟩ := ih
      obtain ⟨hdisk', hentry'⟩ :=
        Project.save_of_undeclared run.sound havoids.not_declares hnames hne hr hx hdisk
      refine ⟨hdisk', ?_⟩
      rw [hentry', hentry]
      cases saved <;> cases r.dirty <;> rfl

/-- Let a regular file stand in a project that is loaded, at a path that reading does not pass over, and
let no file be saved there.  Then it stays on disk as it is.  When a file without contents of its own has
the path, its image has the contents on disk if nothing was written by a save before; otherwise there is
no image, as the document does not have the file. -/
theorem image_of_file {f : Handle} {i : Item} (run : UndeclaredRun root d names saved P)
    (hfound : Project.Found d root names c) (hi : P.workspace.outline.get? f = some i)
    (hk : i.kind = .file) (hnone : i.contents = none)
    (hpath : P.workspace.outline.diskNames f = .ok names) (held : List SharedTree) :
    Project.Found P.disk root names c ∧
      (exec (Workspace.image held f) P.workspace).1.map Tree.plain =
        if saved then .error (.error (.missingData (.ofNames names))) else .ok (.file () c) := by
  have so := run.sound
  obtain ⟨l, hl⟩ := so.tree.exists_line so.attached hi
  have hnames := so.tree.names_diskPath hl
  have hne := so.tree.diskPath_ne_nil so.attached hi (by rw [hk]; rfl)
  rw [so.tree.diskNames_eq_diskPath hl] at hpath
  obtain rfl := Except.ok.inj hpath
  obtain ⟨hdisk, hentry⟩ := run.kept hnames hne hfound
  have hdata : P.workspace.outline.data f = if saved then none else some c := by
    rw [← hentry]
    unfold Outline.data
    rw [hi, Option.bind_some, hnone]
    rfl
  refine ⟨⟨hfound.1, ?_⟩, ?_⟩
  · rwa [← Path.below_eq_join root hnames hne]
  · have himage : (exec (Workspace.image held f) P.workspace).1.map Tree.plain =
        P.workspace.outline.plainImage f := (Workspace.exec_image so hi rfl).1
    rw [himage, so.tree.plainImage_file hi hk, plainFile, hdata]
    cases saved <;> rfl

/-- A project with two files, of which only `a` is declared. -/
def sample : Disk where
  top := .dir [(Utf8.encode "p", .dir [
    (Utf8.encode "outline.yaml", .file (Utf8.encode "package: P\ngroups: \x7bPackage: [file: a]\x7d")),
    (Utf8.encode "a", .file [0x31]), (Utf8.encode "b", .file [0x32])])]

/-- Whether the item that was added last is a file `b` without contents of its own. -/
def addsFile (W : Workspace) : Bool :=
  (W.outline.get? ⟨3, 0⟩).any (fun i => i.kind = .file && i.contents.isNone) &&
    (W.outline.diskNames ⟨3, 0⟩).toOption == some ["b"]

theorem of_addsFile {W : Workspace} (h : addsFile W = true) : ∃ i, W.outline.get? ⟨3, 0⟩ = some i ∧
    i.kind = .file ∧ i.contents = none ∧ W.outline.diskNames ⟨3, 0⟩ = .ok ["b"] := by
  unfold addsFile at h
  obtain ⟨hitem, hnames⟩ := (Bool.and_eq_true ..).mp h
  obtain ⟨i, hi, hfile⟩ := (Option.any_eq_true ..).mp hitem
  simp only [Bool.and_eq_true, decide_eq_true_eq, Option.isNone_iff_eq_none] at hfile
  exact ⟨i, hi, hfile.1, hfile.2, toOption_eq_some.mp (beq_iff_eq.mp hnames)⟩

theorem found_sample : Project.Found sample (.ofString "p") ["b"] [0x32] :=
  ⟨by unfold Disk.Shown; decide, toOption_eq_some.mp (by decide +kernel)⟩

theorem exists_added : ∃ (V : Workspace) (P : Project),
    UndeclaredRun (.ofString "p") sample ["b"] false ⟨V, sample⟩ ∧ addsFile V = true ∧
    UndeclaredRun (.ofString "p") sample ["b"] true P ∧ addsFile P.workspace = true ∧
    (exec (Workspace.image [] ⟨3, 0⟩) P.workspace).1.isOk = false := by
  let change : EditStep := .edit (.setContents ⟨2, 0⟩ [0x78])
  let add : EditStep := .edit (.add ⟨1, 0⟩ .file "b")
  obtain ⟨o, next, W, hload, hwork, -, hcheck⟩ := Project.exists_worked sample (.ofString "p") [change]
    (fun held hmem => by simp [change] at hmem) (fun W =>
      (W.outline.family Outline.root).all (fun x => !W.outline.isOnDisk x ||
        (W.outline.diskNames x).toOption == some ["a"]) &&
      (W.outline.get? Outline.root).any (·.dirty) && (W.play [add]).any addsFile &&
      (exec (Project.save [] (.ofString "p")) ⟨W, sample⟩).1.isOk &&
      ((exec (Project.save [] (.ofString "p")) ⟨W, sample⟩).2.workspace.play [add]).any fun V =>
        addsFile V && !(exec (Workspace.image [] ⟨3, 0⟩) V).1.isOk)
    (by decide +kernel)
  simp only [Bool.and_eq_true] at hcheck
  obtain ⟨⟨⟨⟨honly, hroot⟩, hbefore⟩, hok⟩, hafter⟩ := hcheck
  have hno : ∀ held, EditStep.save held ∉ [add] := fun held hmem => by simp [add] at hmem
  have run : UndeclaredRun (.ofString "p") sample ["b"] false ⟨W, sample⟩ := .work (.load hload) hwork
  have so := run.sound
  obtain ⟨V, hV, hadds⟩ := (Option.any_eq_true ..).mp hbefore
  obtain ⟨r, hr, hdirty⟩ := (Option.any_eq_true ..).mp hroot
  have havoids : W.outline.Avoids ["b"] := by
    intro x ms hdisk hnames hprefix
    obtain ⟨i, hi, -⟩ := (Option.any_eq_true ..).mp hdisk
    have hmem := (so.tree.mem_family_root so.attached).mpr (so.tree.reachable so.attached hi)
    have ha := List.all_eq_true.mp honly x hmem
    rw [hdisk, hnames, Bool.not_true, Bool.false_or, beq_iff_eq] at ha
    rw [Option.some.inj ha] at hprefix
    exact absurd hprefix (by decide)
  rcases hx : exec (Project.save [] (.ofString "p")) ⟨W, sample⟩ with ⟨e | summary, P⟩
  · rw [hx] at hok
    cases hok
  · rw [hx] at hafter
    obtain ⟨V', hV', hafter⟩ := (Option.any_eq_true ..).mp hafter
    obtain ⟨hadds', hmissing⟩ := (Bool.and_eq_true ..).mp hafter
    have run' := run.save havoids hr hx
    rw [hdirty] at run'
    exact ⟨V, ⟨V', P.disk⟩, run.work (.of_play so hno hV), hadds,
      run'.work (.of_play run'.sound hno hV'), hadds', by simpa using hmissing⟩

/-- Before a save an item that is added for a file on disk has its contents, after it none. -/
theorem image_of_added_file : ∃ (V : Workspace) (P : Project),
    UndeclaredRun (.ofString "p") sample ["b"] false ⟨V, sample⟩ ∧
    (exec (Workspace.image [] ⟨3, 0⟩) V).1.map Tree.plain = .ok (.file () [0x32]) ∧
    UndeclaredRun (.ofString "p") sample ["b"] true P ∧
    P.disk.contentsAt (.ofString "p/b") = .ok [0x32] ∧
    (exec (Workspace.image [] ⟨3, 0⟩) P.workspace).1.map Tree.plain =
      .error (.error (.missingData (.ofNames ["b"]))) := by
  obtain ⟨V, P, run, hadds, run', hadds', -⟩ := exists_added
  obtain ⟨i, hi, hk, hnone, hpath⟩ := of_addsFile hadds
  obtain ⟨j, hj, hk', hnone', hpath'⟩ := of_addsFile hadds'
  obtain ⟨-, himage⟩ := run.image_of_file found_sample hi hk hnone hpath []
  obtain ⟨⟨-, hdisk⟩, himage'⟩ := run'.image_of_file found_sample hj hk' hnone' hpath' []
  exact ⟨V, P, run, himage, run', hdisk, himage'⟩

/-- An item is added for a file on disk, and nobody else touched the disk, but there is no image. -/
theorem no_image_after_save : ∃ (P : Project) (f : Handle) (i : Item) (names : List String) (c : Bytes),
    UndeclaredRun (.ofString "p") sample names true P ∧
    Project.Found sample (.ofString "p") names c ∧
    P.workspace.outline.get? f = some i ∧ i.kind = .file ∧ i.contents = none ∧
    P.workspace.outline.diskNames f = .ok names ∧
    (exec (Workspace.image [] f) P.workspace).1.map Tree.plain ≠ .ok (.file () c) := by
  obtain ⟨-, P, -, -, run, hadds, hmissing⟩ := exists_added
  obtain ⟨i, hi, hk, hnone, hpath⟩ := of_addsFile hadds
  refine ⟨P, ⟨3, 0⟩, i, ["b"], [0x32], run, found_sample, hi, hk, hnone, hpath, fun himage => ?_⟩
  cases hx : (exec (Workspace.image [] ⟨3, 0⟩) P.workspace).1 with
  | error e =>
      rw [hx] at himage
      cases himage
  | ok t =>
      rw [hx] at hmissing
      cases hmissing

end UndeclaredRun

end PackageOutline
