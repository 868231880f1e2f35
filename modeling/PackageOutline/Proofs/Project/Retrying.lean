import PackageOutline.Proofs.Disk.Resuming
import PackageOutline.Proofs.Project.Reload

/-! # Saving again

A save whose writing fails keeps the tree, the contents and the document, and marks the root
(`exec_save_of_stops`).  So the next save makes the same tree again, and asks for the same operations.
When these end well, the project and the disk are as if nothing had failed
(`failed_save_can_be_retried`), wherever the first save was stopped. -/

namespace PackageOutline

open Outline

/-- The workspaces that work on one leads to, without saves. -/
inductive Worked (W₀ : Workspace) : Workspace → Prop
  | start : Worked W₀ W₀
  | step {W W' : Workspace} {s : EditStep} : Worked W₀ W → (∀ held, s ≠ .save held) →
      s.Takes W W' → Worked W₀ W'

theorem Worked.sound {W₀ W : Workspace} (so : W₀.outline.Sound) (h : Worked W₀ W) :
    W.outline.Sound := by
  induction h with
  | start => exact so
  | step _ _ hs ih => exact ih.takes hs

theorem Worked.document {W₀ W : Workspace} (so : W₀.outline.Sound) (h : Worked W₀ W) :
    W.outline.document = W₀.outline.document := by
  induction h with
  | start => rfl
  | step hw hne hs ih => exact (hs.document (hw.sound so) hne).trans ih

theorem Worked.of_play {W₀ W : Workspace} {steps : List EditStep} (so : W₀.outline.Sound)
    (hsteps : ∀ held, EditStep.save held ∉ steps) (hplay : W₀.play steps = some W) : Worked W₀ W :=
  Workspace.play_induction (Worked.sound so)
    (fun hmem run hs => run.step (fun held h => hsteps held (h ▸ hmem)) hs) .start hplay

namespace Project

variable {P P' Q Q' : Project} {root : Path} {held held' : List SharedTree} {V : Workspace}
  {t : SharedTree} {d d' again : Disk} {e : DiskError} {summary : Disk.Summary}
  {r : Except ProjectFailure Disk.Summary}

/-! ### One save -/

theorem exec_save_of_refresh (so : P.workspace.outline.Sound)
    (hrefresh : exec (Workspace.refresh held Outline.root) P.workspace = (.ok (some t), V))
    (hx : exec (save held root) P = (r, P')) :
    (∃ e, r = .error (.error (.unwritable e)) ∧
        Disk.Stops (Disk.treeOperations t root P.workspace.outline.document) P.disk e P'.disk ∧
        P'.workspace.outline.Sound ∧ SameTree P.workspace.outline P'.workspace.outline ∧
        ∃ i, P'.workspace.outline.get? Outline.root = some i ∧ i.dirty = true) ∨
      (r = .ok (Disk.treeTally t P.workspace.outline.document) ∧
        Disk.Performs (Disk.treeOperations t root P.workspace.outline.document) P.disk P'.disk ∧
        P'.workspace.outline.document = some t) := by
  cases exec_save so hx with
  | nothing hr hclean _ _ =>
      cases ((Workspace.exec_refresh so hr hrefresh).idle hr hclean).1
  | refused hrefresh' _ _ _ _ _ =>
      rw [hrefresh] at hrefresh'
      cases (Prod.mk.inj hrefresh').1
  | failed hrefresh' so' st hr hdirty hwrite hd hd' =>
      rw [hrefresh] at hrefresh'
      obtain rfl := Option.some.inj (Except.ok.inj (Prod.mk.inj hrefresh').1)
      rcases Disk.exec_writeTree_operations hwrite with ⟨hr', -⟩ | ⟨e, hr', hs⟩
      · cases hr'
      · obtain rfl := Except.error.inj hr'
        exact .inl ⟨_, rfl, hd ▸ hd' ▸ hs, so', st, _, hr, hdirty⟩
  | committed hrefresh' ho hwrite hd hd' =>
      rw [hrefresh] at hrefresh'
      obtain rfl := Option.some.inj (Except.ok.inj (Prod.mk.inj hrefresh').1)
      rcases Disk.exec_writeTree_operations hwrite with ⟨hr', hp⟩ | ⟨e, hr', -⟩
      · exact .inr ⟨congrArg Except.ok (Except.ok.inj hr'), hd ▸ hd' ▸ hp, by rw [ho]⟩
      · cases hr'

/-- A save whose operations are stopped fails with the error of the operation, and leaves the outline as
it was, but with the root marked. -/
theorem exec_save_of_stops (so : P.workspace.outline.Sound)
    (hrefresh : exec (Workspace.refresh held Outline.root) P.workspace = (.ok (some t), V))
    (hs : Disk.Stops (Disk.treeOperations t root P.workspace.outline.document) P.disk e d')
    (hx : exec (save held root) P = (r, P')) : r = .error (.error (.unwritable e)) ∧
      P'.disk = d' ∧ P'.workspace.outline.Sound ∧
      SameTree P.workspace.outline P'.workspace.outline ∧
      ∃ i, P'.workspace.outline.get? Outline.root = some i ∧ i.dirty = true := by
  rcases exec_save_of_refresh so hrefresh hx with ⟨e', rfl, hs', hrest⟩ | ⟨-, hp, -⟩
  · obtain ⟨rfl, rfl⟩ := hs.unique hs'
    exact ⟨rfl, rfl, hrest⟩
  · exact absurd hs hp.not_stops

/-- A save whose operations end well makes its tree the document. -/
theorem exec_save_of_performs (so : P.workspace.outline.Sound)
    (hrefresh : exec (Workspace.refresh held Outline.root) P.workspace = (.ok (some t), V))
    (hp : Disk.Performs (Disk.treeOperations t root P.workspace.outline.document) P.disk d') :
    ∃ P', exec (save held root) P =
        (.ok (Disk.treeTally t P.workspace.outline.document), P') ∧
      P'.disk = d' ∧ P'.workspace.outline.document = some t := by
  rcases hx : exec (save held root) P with ⟨r, P'⟩
  rcases exec_save_of_refresh so hrefresh hx with ⟨e', -, hs, -⟩ | ⟨rfl, hp', ht⟩
  · exact absurd hs hp.not_stops
  · exact ⟨P', rfl, hp'.unique hp, ht⟩

/-! ### Two saves -/

theorem refresh_again {W W' V : Workspace} (so : W.outline.Sound)
    (hrefresh : exec (Workspace.refresh held Outline.root) W = (.ok (some t), V))
    (so' : W'.outline.Sound) (st : SameTree W.outline W'.outline)
    (hroot : ∃ i, W'.outline.get? Outline.root = some i ∧ i.dirty = true)
    (held' : List SharedTree) : ∃ u V', u.plain = t.plain ∧
      exec (Workspace.refresh held' Outline.root) W' = (.ok (some u), V') := by
  obtain ⟨i, hi, hdirty⟩ := hroot
  obtain ⟨i₀, hi₀, -⟩ := so.tree.root
  have himage : W'.outline.plainImage Outline.root = .ok t.plain :=
    (st.plainImage so.tree so.attached hi₀).trans
      ((Workspace.exec_refresh so hi₀ hrefresh).plainImage_of_some hi₀)
  rcases hx : exec (Workspace.refresh held' Outline.root) W' with ⟨r, V'⟩
  have R := Workspace.exec_refresh so' hi hx
  have hr := R.image hi hdirty
  rw [himage] at hr
  match r, hx, hr with
  | .ok (some u), _, hr => exact ⟨u, V', Option.some.inj (Except.ok.inj hr), rfl⟩

/-- A save that was stopped and is done again is stopped again by an operation that fails, or it comes
to what a save comes to that nothing stops. -/
theorem exec_save_again (so : P.workspace.outline.Sound) (hdir : P.disk.isDir root = true)
    (hrefresh : exec (Workspace.refresh held Outline.root) P.workspace = (.ok (some t), V))
    (hs : Disk.Stops (Disk.treeOperations t root P.workspace.outline.document) P.disk e P'.disk)
    (so' : P'.workspace.outline.Sound) (st : SameTree P.workspace.outline P'.workspace.outline)
    (hroot : ∃ i, P'.workspace.outline.get? Outline.root = some i ∧ i.dirty = true)
    (htop : again.top = P'.disk.top)
    (hx : exec (save held' root) ⟨P'.workspace, again⟩ = (r, Q)) :
    (∃ e', r = .error (.error (.unwritable e')) ∧ Disk.Stops
        (Disk.treeOperations t root P.workspace.outline.document) again e' Q.disk) ∨
      ∃ summary R, r = .ok summary ∧ Disk.Performs
          (Disk.treeOperations t root P.workspace.outline.document) again Q.disk ∧
        exec (save held root) ⟨P.workspace, P.disk.faultless⟩ = (.ok summary, R) ∧
        R.workspace.outline.document.map Tree.plain = Q.workspace.outline.document.map Tree.plain ∧
        ∀ place, R.disk.view place = Q.disk.view place := by
  obtain ⟨u, V', hu, hrefresh'⟩ := refresh_again so hrefresh so' st hroot held'
  obtain ⟨hops, htally⟩ := Disk.treeOperations_of_plain hu root P.workspace.outline.document
  have hagain := exec_save_of_refresh (P := ⟨P'.workspace, again⟩) so' hrefresh' hx
  rw [st.document, hops, htally] at hagain
  rcases hagain with ⟨e', rfl, hs', -⟩ | ⟨rfl, hp, hdocument⟩
  · exact .inl ⟨e', rfl, hs'⟩
  · obtain ⟨hstorable, htopDir⟩ := storable_of_refresh so hrefresh
    have hsame : Disk.Extends (fun _ => True) P.disk P.disk.faultless := .of_top rfl
    have hback : Disk.Extends (fun _ => True) P.disk.faultless P.disk := .of_top rfl
    have hless : Disk.Extends (fun _ => True) P.disk.faultless again :=
      (hback.trans hs.extends).trans (.of_top htop)
    obtain ⟨clean, hclean⟩ := Disk.performs_root_of_extends hstorable htopDir hless
      P.disk.faults_faultless (hsame.isDir hdir) hp
    obtain ⟨R, hR, rfl, hdocument'⟩ := exec_save_of_performs
      (P := ⟨P.workspace, P.disk.faultless⟩) so hrefresh hclean
    refine .inr ⟨_, R, rfl, hp, hR, ?_, hs.view_eq htop P.disk.top_faultless hp hclean⟩
    rw [hdocument, hdocument', Option.map_some, Option.map_some, hu]

theorem isDir_of_present {d₀ : Disk} {o : Outline} {next next' : ObjectId}
    (hload : (load d₀ next root).result = .ok (o, next'))
    (hdocument : P.workspace.outline.document = o.document) (hp : Present root false P) :
    P.disk.isDir root = true := by
  obtain ⟨description, files, hdescription, hfiles, hbuild, -⟩ := load_eq_ok.mp hload
  obtain ⟨b, hb⟩ := contentsAt_of_readDescription hdescription
  have hvalid : Identifier.isValid descriptionName = true := by decide
  have hentry : P.workspace.outline.entryAt [descriptionName] = some b := by
    unfold entryAt
    rw [hdocument, (Description.fresh_of_build hbuild).document]
    refine (contents_of_document hfiles (List.cons_ne_nil _ _) next).mpr
      ⟨Disk.shown_cons.mpr ⟨by decide, Disk.shown_nil⟩, ?_⟩
    have hview := Disk.view_of_contentsAt hb
    rwa [descriptionPath, root.place_join hvalid] at hview
  obtain ⟨b', hb', -⟩ := hp (Path.names_singleton hvalid) (List.cons_ne_nil _ _) hentry
  obtain ⟨node, hstat, -⟩ := Disk.readTree_eq_ok.mp hfiles
  exact isDir_root hstat hb'

/-- When one of the operations of a save fails, on a project that was loaded and worked on and whose
document is on disk, the save fails with the error of that operation; the outline is as it was, but with
the root marked.  When the save is done again on what is on disk then, it asks for the same operations,
and only one of them can stop it.  If none does, it has the summary that the first save has when nothing
refuses its operations, commits the same document, and leaves the same on disk. -/
theorem failed_save_can_be_retried {d₀ : Disk} {o : Outline} {next next' : ObjectId}
    {notices : List Notice} {W : Workspace} (hload : (load d₀ next root).result = .ok (o, next'))
    (hwork : Worked ⟨o, next', notices⟩ W) (hpresent : Present root false ⟨W, d⟩)
    (hrefresh : exec (Workspace.refresh held Outline.root) W = (.ok (some t), V))
    (hs : Disk.Stops (Disk.treeOperations t root W.outline.document) d e d') :
    ∃ P', exec (save held root) ⟨W, d⟩ = (.error (.error (.unwritable e)), P') ∧ P'.disk = d' ∧
      SameTree W.outline P'.workspace.outline ∧
      (∃ i, P'.workspace.outline.get? Outline.root = some i ∧ i.dirty = true) ∧
      ∀ held' again, again.top = d'.top →
        ∃ r Q, exec (save held' root) ⟨P'.workspace, again⟩ = (r, Q) ∧
          ((∃ e', r = .error (.error (.unwritable e')) ∧ Disk.Stops
              (Disk.treeOperations t root W.outline.document) again e' Q.disk) ∨
            ∃ summary R, r = .ok summary ∧ Disk.Performs
                (Disk.treeOperations t root W.outline.document) again Q.disk ∧
              exec (save held root) ⟨W, d.faultless⟩ = (.ok summary, R) ∧
              R.workspace.outline.document.map Tree.plain =
                Q.workspace.outline.document.map Tree.plain ∧
              (∀ place, R.disk.view place = Q.disk.view place) ∧
              ∀ p c, R.disk.contentsAt p = .ok c ↔ Q.disk.contentsAt p = .ok c) := by
  obtain ⟨description, files, -, -, hbuild, -⟩ := load_eq_ok.mp hload
  have so₀ := (Description.fresh_of_build hbuild).sound
  have so : W.outline.Sound := hwork.sound so₀
  have hdir : d.isDir root = true :=
    isDir_of_present (P := ⟨W, d⟩) hload (hwork.document so₀) hpresent
  rcases hx : exec (save held root) ⟨W, d⟩ with ⟨r, P'⟩
  obtain ⟨rfl, rfl, so', st, hroot⟩ := exec_save_of_stops (P := ⟨W, d⟩) so hrefresh hs hx
  refine ⟨P', rfl, rfl, st, hroot, fun held' again htop => ⟨_, _, rfl, ?_⟩⟩
  rcases exec_save_again (P := ⟨W, d⟩) so hdir hrefresh hs so' st hroot htop rfl with
    hstops | ⟨summary, R, hr, hp, hR, hdocument, hview⟩
  · exact .inl hstops
  · exact .inr ⟨summary, R, hr, hp, hR, hdocument, hview, Disk.contentsAt_iff_of_view hview⟩

theorem exists_worked (d : Disk) (root : Path) (steps : List EditStep)
    (hsteps : ∀ held, EditStep.save held ∉ steps) (check : Workspace → Bool)
    (h : ((load d 0 root).result.toOption.bind fun x =>
      (Workspace.play ⟨x.1, x.2, []⟩ steps).map fun W => (x, W)).any (fun z => check z.2) = true) :
    ∃ o next W, (load d 0 root).result = .ok (o, next) ∧ Worked ⟨o, next, []⟩ W ∧
      Present root false ⟨W, d⟩ ∧ check W = true := by
  obtain ⟨⟨⟨o, next⟩, W⟩, hall, hcheck⟩ := (Option.any_eq_true ..).mp h
  obtain ⟨x, hload, hall⟩ := Option.bind_eq_some_iff.mp hall
  obtain ⟨W', hplay, heq⟩ := Option.map_eq_some_iff.mp hall
  cases heq
  have hload := toOption_eq_some.mp hload
  obtain ⟨description, files, -, -, hbuild, -⟩ := load_eq_ok.mp hload
  have so := (Description.fresh_of_build hbuild).sound
  have hwork : Worked ⟨o, next, []⟩ W := .of_play so hsteps hplay
  exact ⟨o, next, W, hload, hwork, (present_of_load hload).congr (hwork.document so) rfl, hcheck⟩

theorem stops_of_writeFailed {W : Workspace} (so : W.outline.Sound)
    (hsome : (exec (Workspace.refresh held Outline.root) W).1.toOption.any Option.isSome = true)
    (hfailed : writeFailed (exec (save held root) ⟨W, d⟩).1 = true) :
    ∃ t V e d', exec (Workspace.refresh held Outline.root) W = (.ok (some t), V) ∧
      Disk.Stops (Disk.treeOperations t root W.outline.document) d e d' := by
  obtain ⟨b, hb, hbsome⟩ := (Option.any_eq_true ..).mp hsome
  obtain ⟨t, rfl⟩ := Option.isSome_iff_exists.mp hbsome
  have hrefresh : exec (Workspace.refresh held Outline.root) W = (.ok (some t), _) :=
    Prod.ext (toOption_eq_some.mp hb) rfl
  rcases hx : exec (save held root) ⟨W, d⟩ with ⟨r, P⟩
  rw [hx] at hfailed
  rcases exec_save_of_refresh (P := ⟨W, d⟩) so hrefresh hx with ⟨e, -, hs, -⟩ | ⟨rfl, -⟩
  · exact ⟨t, _, e, _, hrefresh, hs⟩
  · cases hfailed

/-- A project with two files, of which one is on disk, where the third change is refused. -/
def hindered : Disk := { ProjectRun.sample with faults := [none, none, some .notFound] }

/-- Both files are changed.  The save writes `a` and fails at `b`, and is done again. -/
theorem retried_save_of_two_files : ∃ (W : Workspace) (P Q R : Project) (e : DiskError)
    (summary : Disk.Summary),
    exec (save [] (.ofString "p")) ⟨W, hindered⟩ = (.error (.error (.unwritable e)), P) ∧
    SameTree W.outline P.workspace.outline ∧
    exec (save [] (.ofString "p")) P = (.ok summary, Q) ∧
    exec (save [] (.ofString "p")) ⟨W, hindered.faultless⟩ = (.ok summary, R) ∧
    (∀ place, R.disk.view place = Q.disk.view place) ∧
    Q.disk.contentsAt (.ofString "p/b") = .ok [0x33] ∧
    R.disk.contentsAt (.ofString "p/b") = .ok [0x33] := by
  obtain ⟨o, next, W, hload, hwork, hpresent, hcheck⟩ := exists_worked hindered (.ofString "p")
    [.edit (.setContents ⟨2, 0⟩ [0x32]), .edit (.setContents ⟨3, 0⟩ [0x33])]
    (fun held hmem => by simp at hmem) (fun W =>
      (exec (Workspace.refresh [] Outline.root) W).1.toOption.any Option.isSome &&
      writeFailed (exec (save [] (.ofString "p")) ⟨W, hindered⟩).1 &&
      ((exec (save [] (.ofString "p")) (exec (save [] (.ofString "p")) ⟨W, hindered⟩).2).1.isOk &&
        ((exec (save [] (.ofString "p")) (exec (save [] (.ofString "p"))
          ⟨W, hindered⟩).2).2.disk.contentsAt (.ofString "p/b")).toOption == some [0x33]))
    (by decide +kernel)
  simp only [Bool.and_eq_true, beq_iff_eq] at hcheck
  obtain ⟨⟨hsome, hfailed⟩, hok, hcontents⟩ := hcheck
  obtain ⟨description, files, -, -, hbuild, -⟩ := load_eq_ok.mp hload
  have so := hwork.sound (Description.fresh_of_build hbuild).sound
  obtain ⟨t, V, e, d', hrefresh, hs⟩ := stops_of_writeFailed so hsome hfailed
  obtain ⟨P, hx, hd, st, -, hagain⟩ :=
    failed_save_can_be_retried hload hwork hpresent hrefresh hs
  rw [hx] at hok hcontents
  obtain ⟨r, Q, hQ, hcases⟩ := hagain [] P.disk (by rw [hd])
  have hQ : exec (save [] (.ofString "p")) P = (r, Q) := hQ
  rw [hQ] at hok hcontents
  rcases hcases with ⟨_, rfl, -⟩ | ⟨summary, R, rfl, -, hR, -, hview, hcontentsAt⟩
  · cases hok
  · have hstored := toOption_eq_some.mp hcontents
    exact ⟨W, P, Q, R, e, summary, hx, st, hQ, hR, hview, hstored,
      (hcontentsAt _ _).mpr hstored⟩

end Project

end PackageOutline
