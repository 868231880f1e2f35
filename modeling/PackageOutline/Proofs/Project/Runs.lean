import PackageOutline.Proofs.Disk.Reading
import PackageOutline.Proofs.Project.Saves

/-! # Runs of projects

A run of a project (`ProjectRun`) starts with loading it and goes on with work on the outline and
saves, in any order; changes of the disk may be refused at any time, and a save whose writing failed
may be tried again.

A save compares with the document, so it is right as long as the document is what is on disk.  That
holds after loading and until writing fails (`ProjectRun.present`): then files may have been written
that the document does not know of.  `ProjectRun.on_disk_after_save` says exactly which files are on
disk after a save that ended well; `ProjectRun.stale_after_save` is a run on which one is not. -/

namespace PackageOutline

open Outline

/-- The projects that runs lead to, and whether writing failed in a save on the way.  The work of
others on the disk may be anything that leaves the files of the document as they are. -/
inductive ProjectRun (root : Path) : Bool → Project → Prop
  | load {d : Disk} {o : Outline} {next next' : ObjectId} {notices : List Notice} :
      (Project.load d next root).result = .ok (o, next') →
        ProjectRun root false ⟨⟨o, next', notices⟩, d⟩
  | work {failed : Bool} {P : Project} {W : Workspace} {s : EditStep} : ProjectRun root failed P →
      (∀ held, s ≠ .save held) → (∀ held, s ≠ .refresh held Outline.root) →
      s.Takes P.workspace W → ProjectRun root failed ⟨W, P.disk⟩
  | save {failed : Bool} {P P' : Project} {held : List SharedTree}
      {r : Except ProjectFailure Disk.Summary} : ProjectRun root failed P → P.tells held = true →
      exec (Project.save held root) P = (r, P') →
        ProjectRun root (failed || Project.writeFailed r) P'
  | others {failed : Bool} {P : Project} {d : Disk} : ProjectRun root failed P →
      (∀ names c, P.workspace.outline.entryAt names ≠ none →
        P.disk.contentsAt (root.below names) = .ok c → d.contentsAt (root.below names) = .ok c) →
      ProjectRun root failed { P with disk := d }

namespace Project

variable {P P' : Project} {root : Path} {held : List SharedTree} {failed : Bool}

/-- Every file of the document is a file on disk, with the same contents unless writing failed. -/
def Present (root : Path) (failed : Bool) (P : Project) : Prop :=
  ∀ ⦃names c⦄, Path.Names names → names ≠ [] → P.workspace.outline.entryAt names = some c →
    ∃ b, P.disk.contentsAt (root.below names) = .ok b ∧ (failed = false → b = c)

theorem Present.congr (p : Present root failed P)
    (ho : P'.workspace.outline.document = P.workspace.outline.document) (hd : P'.disk = P.disk) :
    Present root failed P' := by
  intro names c hnames hn hc
  rw [hd]
  unfold entryAt at hc
  rw [ho] at hc
  exact p hnames hn hc

theorem load_eq_ok {d : Disk} {next next' : ObjectId} {o : Outline} :
    (load d next root).result = .ok (o, next') ↔ ∃ description files,
      (readDescription d root).result = .ok description ∧
        (Disk.readTree d root).result = .ok files ∧
          (description.build (some (files.number next).1)).result = .ok o ∧
            next' = (files.number next).2 := by
  unfold load
  constructor
  · intro h
    obtain ⟨description, hdescription, h⟩ := Traced.bind_eq_ok.mp h
    obtain ⟨_, -, h⟩ := Traced.bind_eq_ok.mp h
    obtain ⟨files, hfiles, h⟩ := Traced.bind_eq_ok.mp h
    obtain ⟨_, -, h⟩ := Traced.bind_eq_ok.mp h
    obtain ⟨o', hbuild, h⟩ := Traced.bind_eq_ok.mp h
    obtain ⟨rfl, rfl⟩ := Prod.mk.inj (Except.ok.inj h)
    exact ⟨description, files, mapError_eq_ok.mp hdescription, mapError_eq_ok.mp hfiles,
      mapError_eq_ok.mp hbuild, rfl⟩
  · rintro ⟨description, files, hdescription, hfiles, hbuild, rfl⟩
    refine Traced.bind_eq_ok.mpr ⟨description, mapError_eq_ok.mpr hdescription, ?_⟩
    refine Traced.bind_eq_ok.mpr ⟨(), rfl, ?_⟩
    refine Traced.bind_eq_ok.mpr ⟨files, mapError_eq_ok.mpr hfiles, ?_⟩
    refine Traced.bind_eq_ok.mpr ⟨(), rfl, ?_⟩
    exact Traced.bind_eq_ok.mpr ⟨o, mapError_eq_ok.mpr hbuild, rfl⟩

theorem present_of_load {d : Disk} {next next' : ObjectId} {o : Outline} {notices : List Notice}
    (h : (load d next root).result = .ok (o, next')) :
    Present root failed ⟨⟨o, next', notices⟩, d⟩ := by
  obtain ⟨description, files, -, hfiles, hbuild, -⟩ := load_eq_ok.mp h
  intro names c hnames hn hc
  rw [entryAt_eq_at? hn, (Description.fresh_of_build hbuild).document, Option.bind_some] at hc
  rw [← Tree.contents_at?_plain, Tree.plain_number] at hc
  exact ⟨c, Disk.contentsAt_of_readTree hfiles hnames hc, fun _ => rfl⟩

theorem Saved.sound {r : Except ProjectFailure Disk.Summary} (hs : Saved held root P P' r)
    (so : P.workspace.outline.Sound) (m : P.workspace.outline.Mirrored) :
    P'.workspace.outline.Sound ∧ P'.workspace.outline.Mirrored := by
  cases hs with
  | nothing _ _ ho _ => exact ho ▸ ⟨so, m⟩
  | refused _ so' hr hd _ _ => exact ⟨so', .of_dirty ⟨_, hr, hd⟩⟩
  | failed _ so' _ hr hd _ _ _ => exact ⟨so', .of_dirty ⟨_, hr, hd⟩⟩
  | committed hrefresh ho _ _ _ =>
      obtain ⟨so', ht, -⟩ := Workspace.refresh_root so hrefresh
      rw [ho]
      exact ⟨so'.commit ht, so'.mirrored_commit ht⟩

/-- A save keeps the document and the disk together as long as writing does not fail. -/
theorem Present.save {r : Except ProjectFailure Disk.Summary} (p : Present root failed P)
    (so : P.workspace.outline.Sound) (htell : P.tells held = true)
    (hs : Saved held root P P' r) : Present root (failed || writeFailed r) P' := by
  cases hs with
  | nothing _ _ ho hd =>
      rw [writeFailed_ok, Bool.or_false]
      exact p.congr (congrArg Outline.document ho) hd
  | refused _ _ _ _ ho hd =>
      rw [writeFailed_ofOutline, Bool.or_false]
      exact p.congr ho hd
  | failed hrefresh _ st _ _ hwrite hd hd' =>
      obtain ⟨ht, hdir⟩ := storable_of_refresh so hrefresh
      intro names c hnames hn hc
      unfold entryAt at hc
      rw [st.document] at hc
      obtain ⟨b, hb, -⟩ := p hnames hn hc
      rw [hd] at hb
      obtain ⟨b', hb'⟩ := (extends_of_failed ht hdir hwrite).exists_contentsAt hb
      refine ⟨b', hd' ▸ hb', fun h => ?_⟩
      rw [writeFailed_unwritable, Bool.or_true] at h
      cases h
  | committed hrefresh ho hwrite hd hd' =>
      intro names c hnames hn hc
      unfold entryAt at hc
      rw [ho, Option.bind_some] at hc
      have stored := stored_of_committed so htell hrefresh hwrite hn hc
      rw [← hd, ← hd'] at stored
      rw [writeFailed_ok, Bool.or_false]
      unfold Disk.Stored at stored
      split at stored
      · rename_i hsame
        obtain ⟨b, hb, hbc⟩ := p hnames hn hsame
        exact ⟨b, stored b hb, hbc⟩
      · exact ⟨c, stored, fun _ => rfl⟩

end Project

namespace ProjectRun

variable {P P' : Project} {root : Path} {held : List SharedTree} {failed : Bool}

/-- On all runs the outline is in order, a clean root hides nothing, and the document is on disk. -/
theorem invariant (run : ProjectRun root failed P) : P.workspace.outline.Sound ∧
    P.workspace.outline.Mirrored ∧ P.Present root failed := by
  induction run with
  | load h =>
      obtain ⟨description, files, -, -, hbuild, -⟩ := Project.load_eq_ok.mp h
      exact ⟨(Start.build hbuild).sound, (Start.build hbuild).mirrored, Project.present_of_load h⟩
  | work run hsave hrefresh hs ih =>
      obtain ⟨so, m, p⟩ := ih
      refine ⟨so.takes hs, m.takes so hs hrefresh, p.congr ?_ rfl⟩
      exact hs.document so hsave
  | save run htell hx ih =>
      obtain ⟨so, m, p⟩ := ih
      have hs := Project.exec_save so hx
      obtain ⟨so', m'⟩ := hs.sound so m
      exact ⟨so', m', p.save so htell hs⟩
  | others run hsame ih =>
      obtain ⟨so, m, p⟩ := ih
      refine ⟨so, m, fun names c hnames hn hc => ?_⟩
      obtain ⟨b, hb, hbc⟩ := p hnames hn hc
      exact ⟨b, hsame names b (by rw [hc]; simp) hb, hbc⟩

end ProjectRun

/-! ### Playing steps -/

/-- A step on a project that is played: an edit, a save, or which of the coming changes of the disk
are refused. -/
inductive ProjectStep where
  | edit (c : EditCall)
  | save (held : List SharedTree)
  | refuse (faults : List (Option IoError))

/-- The project after a step, and whether writing failed so far. -/
def ProjectStep.next? (root : Path) : Bool × Project → ProjectStep → Option (Bool × Project)
  | (failed, P), edit c => ((EditStep.edit c).next? P.workspace).map fun W => (failed, ⟨W, P.disk⟩)
  | (failed, P), save held =>
    if P.tells held then
      some (failed || Project.writeFailed (exec (Project.save held root) P).1,
        (exec (Project.save held root) P).2)
    else none
  | (failed, P), refuse faults => some (failed, { P with disk := { P.disk with faults := faults } })

/-- The project that is loaded from a disk and goes on with some steps. -/
def Project.play (root : Path) (d : Disk) (steps : List ProjectStep) : Option (Bool × Project) :=
  match (Project.load d 0 root).result with
  | .ok (o, next) => steps.foldlM (ProjectStep.next? root) (false, ⟨⟨o, next, []⟩, d⟩)
  | .error _ => none

namespace ProjectRun

variable {P P' : Project} {root : Path} {held : List SharedTree} {failed : Bool}

theorem next {q q' : Bool × Project} {s : ProjectStep} (run : ProjectRun root q.1 q.2)
    (hs : s.next? root q = some q') : ProjectRun root q'.1 q'.2 := by
  obtain ⟨failed, P⟩ := q
  cases s with
  | edit c =>
      rw [ProjectStep.next?] at hs
      obtain ⟨W, hW, rfl⟩ := Option.map_eq_some_iff.mp hs
      exact run.work (fun _ h => by cases h) (fun _ h => by cases h)
        (run.invariant.1.takes_of_next? hW)
  | save held =>
      rw [ProjectStep.next?] at hs
      split at hs
      · rename_i htell
        obtain rfl := Option.some.inj hs
        exact run.save htell rfl
      · cases hs
  | refuse faults =>
      rw [ProjectStep.next?] at hs
      obtain rfl := Option.some.inj hs
      refine run.others fun names c _ hc => ?_
      obtain ⟨place, hr, -⟩ := Disk.contentsAt_eq_ok.mp hc
      have e : Disk.Extends (fun _ => False) P.disk { P.disk with faults := faults } := .of_top rfl
      exact e.contentsAt hr not_false hc

/-- What is played from a disk that can be loaded is a run. -/
theorem play {d : Disk} {steps : List ProjectStep} {q : Bool × Project}
    (hp : Project.play root d steps = some q) : ProjectRun root q.1 q.2 := by
  unfold Project.play at hp
  split at hp
  · rename_i o next hload
    have run : ProjectRun root (false, (⟨⟨o, next, []⟩, d⟩ : Project)).1
        (false, (⟨⟨o, next, []⟩, d⟩ : Project)).2 := .load hload
    generalize (false, (⟨⟨o, next, []⟩, d⟩ : Project)) = q₀ at run hp
    induction steps generalizing q₀ with
    | nil =>
        obtain rfl := Option.some.inj hp
        exact run
    | cons s steps ih =>
        rw [List.foldlM_cons] at hp
        obtain ⟨q₁, hs, hrest⟩ := Option.bind_eq_some_iff.mp hp
        exact ih q₁ (run.next hs) hrest
  · cases hp

/-! ### After a save -/

/-- After a save that ended well, whatever failed before it, a file is on disk with its data exactly
if the document did not have that data yet or the file was on disk with it already.  If writing never
failed before, it always is. -/
theorem on_disk_after_save {summary : Disk.Summary} {f : Handle} (run : ProjectRun root failed P)
    (htell : P.tells held = true) (hx : exec (Project.save held root) P = (.ok summary, P'))
    (hf : P'.workspace.outline.Reachable f) (hfile : P'.workspace.outline.isFile f = true) :
    ∃ names, P'.workspace.outline.diskNames f = .ok names ∧
      P'.workspace.outline.entryAt names = P'.workspace.outline.data f ∧
      (∀ r, P.workspace.outline.get? Outline.root = some r → r.dirty = true →
        ∃ c, P'.workspace.outline.data f = some c) ∧
      ∀ c, P'.workspace.outline.data f = some c →
        (P'.disk.contentsAt (root.join (Path.ofNames names).bytes) = .ok c ↔
          (P.workspace.outline.entryAt names = some c →
            P.disk.contentsAt (root.join (Path.ofNames names).bytes) = .ok c)) ∧
        (failed = false → P'.disk.contentsAt (root.join (Path.ofNames names).bytes) = .ok c) := by
  obtain ⟨so, m, p⟩ := run.invariant
  have hs := Project.exec_save so hx
  have so' := (hs.sound so m).1
  obtain ⟨i, hi⟩ := so'.tree.live_of_reachable hf
  have hk : i.kind = .file := by
    rw [isFile_eq hi] at hfile
    simpa [Kind.holdsData] using hfile
  obtain ⟨l, hl⟩ := so'.tree.exists_line so'.attached hi
  have hnames := so'.tree.names_diskPath hl
  have hn := so'.tree.diskPath_ne_nil so'.attached hi (by rw [hk]; rfl)
  refine ⟨_, so'.tree.diskNames_eq_diskPath hl, ?_⟩
  rw [← Path.below_eq_join root hnames hn]
  cases hs with
  | nothing hr hclean ho hd =>
      rw [ho] at hi hnames hn ⊢
      rw [hd]
      have hentry := m.entryAt hr hclean hi hk
      refine ⟨hentry, fun r' hr' hdirty => ?_, fun c hc => ?_⟩
      · rw [hr] at hr'
        rw [← Option.some.inj hr', hclean] at hdirty
        cases hdirty
      · rw [hc] at hentry
        obtain ⟨b, hb, hbc⟩ := p hnames hn hentry
        refine ⟨⟨fun h _ => h, fun h => h hentry⟩, fun hfailed => ?_⟩
        rw [hb, hbc hfailed]
  | committed hrefresh ho hwrite hd hd' =>
      obtain ⟨soW, ht, -⟩ := Workspace.refresh_root so hrefresh
      rw [ho] at hi hnames hn ⊢
      obtain ⟨c, hdata, hfound, hpath⟩ := soW.file_committed ht hi hk
      rw [hpath] at hnames hn ⊢
      have stored := Project.stored_of_committed so htell hrefresh hwrite hn hfound
      rw [← hd, ← hd'] at stored
      refine ⟨hfound.trans hdata.symm, fun _ _ _ => ⟨c, hdata⟩, fun c' hc' => ?_⟩
      rw [hdata] at hc'
      obtain rfl := Option.some.inj hc'
      unfold Disk.Stored at stored
      split at stored
      · rename_i hsame
        obtain ⟨b, hb, hbc⟩ := p hnames hn hsame
        refine ⟨⟨fun h _ => ?_, fun h => stored c (h hsame)⟩, fun hfailed => ?_⟩
        · have hbc' := stored b hb
          rw [h] at hbc'
          rw [hb, ← Except.ok.inj hbc']
        · rw [stored b hb, hbc hfailed]
      · rename_i hother
        exact ⟨⟨fun _ h => absurd h hother, fun _ => stored⟩, fun _ => stored⟩

/-- A project with two files `a` and `b`, of which `a` is on disk. -/
def sample : Disk where
  top := .dir [(Utf8.encode "p", .dir [
    (Utf8.encode "outline.yaml",
      .file (Utf8.encode "package: P\ngroups: \x7bPackage: [file: a, file: b]\x7d")),
    (Utf8.encode "a", .file [0x31])])]

/-- Changes of both files, and a save that writes `a` but fails at `b`. -/
def failedSave : List ProjectStep :=
  [.edit (.setContents ⟨2, 0⟩ [0x32]), .edit (.setContents ⟨3, 0⟩ [0x33]),
    .refuse [none, none, some .notFound], .save []]

/-- A save of a project that was played after a failed one, checked on both sides. -/
theorem exists_of_play (root : Path) (d : Disk) (steps : List ProjectStep)
    (check : Project → Project → Bool)
    (h : (Project.play root d steps).any (fun q => q.1 && q.2.tells [] &&
      (exec (Project.save [] root) q.2).1.isOk && check q.2 (exec (Project.save [] root) q.2).2) = true) :
    ∃ P P' summary, ProjectRun root true P ∧ P.tells [] = true ∧
      exec (Project.save [] root) P = (.ok summary, P') ∧ check P P' = true := by
  obtain ⟨⟨failed, P⟩, hplay, hP⟩ := (Option.any_eq_true ..).mp h
  simp only [Bool.and_eq_true] at hP
  obtain ⟨⟨⟨rfl, htell⟩, hok⟩, hcheck⟩ := hP
  rcases hx : exec (Project.save [] root) P with ⟨e | summary, P'⟩
  · rw [hx] at hok
    cases hok
  · rw [hx] at hcheck
    exact ⟨P, P', summary, play hplay, htell, hx, hcheck⟩

/-- The save is tried again, and `b` is on disk then. -/
theorem on_disk_after_second_save : ∃ (P P' : Project) (summary : Disk.Summary),
    ProjectRun (.ofString "p") true P ∧ P.tells [] = true ∧
    exec (Project.save [] (.ofString "p")) P = (.ok summary, P') ∧
    P'.workspace.outline.diskNames ⟨3, 0⟩ = .ok ["b"] ∧
    P'.workspace.outline.data ⟨3, 0⟩ = some [0x33] ∧
    P'.disk.contentsAt ((Path.ofString "p").join (Path.ofNames ["b"]).bytes) = .ok [0x33] := by
  obtain ⟨P, P', summary, run, htell, hx, hcheck⟩ := exists_of_play (.ofString "p") sample failedSave
    (fun P P' => P'.workspace.outline.isFile ⟨3, 0⟩ &&
      (P'.workspace.outline.diskNames ⟨3, 0⟩).toOption == some ["b"] &&
      P'.workspace.outline.data ⟨3, 0⟩ == some [0x33] &&
      P.workspace.outline.entryAt ["b"] != some [0x33]) (by decide +kernel)
  simp only [Bool.and_eq_true, beq_iff_eq, bne_iff_ne] at hcheck
  obtain ⟨⟨⟨hfile, hnames⟩, hdata⟩, hnew⟩ := hcheck
  have hnames := toOption_eq_some.mp hnames
  have so := ((Project.exec_save run.invariant.1 hx).sound run.invariant.1 run.invariant.2.1).1
  obtain ⟨i, hi, -⟩ := (Option.any_eq_true ..).mp hfile
  obtain ⟨names, hnames', -, -, hstored⟩ :=
    run.on_disk_after_save htell hx (so.tree.reachable so.attached hi) hfile
  rw [hnames] at hnames'
  obtain rfl := Except.ok.inj hnames'
  exact ⟨P, P', summary, run, htell, hx, hnames, hdata,
    (hstored _ hdata).1.mpr fun h => absurd h hnew⟩

/-- When `a` is changed back first, the save leaves it as the one that failed wrote it. -/
theorem stale_after_save : ∃ (P P' : Project) (summary : Disk.Summary) (f : Handle)
    (names : List String) (b c : Bytes), ProjectRun (.ofString "p") true P ∧ P.tells [] = true ∧
    exec (Project.save [] (.ofString "p")) P = (.ok summary, P') ∧
    P'.workspace.outline.Reachable f ∧ P'.workspace.outline.isFile f = true ∧
    P'.workspace.outline.diskNames f = .ok names ∧ P'.workspace.outline.data f = some c ∧
    P'.disk.contentsAt ((Path.ofString "p").join (Path.ofNames names).bytes) = .ok b ∧ b ≠ c := by
  obtain ⟨P, P', summary, run, htell, hx, hcheck⟩ := exists_of_play (.ofString "p") sample
    (failedSave ++ [.edit (.setContents ⟨2, 0⟩ [0x31])])
    (fun _ P' => P'.workspace.outline.isFile ⟨2, 0⟩ &&
      (P'.workspace.outline.diskNames ⟨2, 0⟩).toOption == some ["a"] &&
      P'.workspace.outline.data ⟨2, 0⟩ == some [0x31] &&
      (P'.disk.contentsAt ((Path.ofString "p").join (Path.ofNames ["a"]).bytes)).toOption ==
        some [0x32]) (by decide +kernel)
  simp only [Bool.and_eq_true, beq_iff_eq] at hcheck
  obtain ⟨⟨⟨hfile, hnames⟩, hdata⟩, hstale⟩ := hcheck
  have so := ((Project.exec_save run.invariant.1 hx).sound run.invariant.1 run.invariant.2.1).1
  obtain ⟨i, hi, -⟩ := (Option.any_eq_true ..).mp hfile
  exact ⟨P, P', summary, ⟨2, 0⟩, ["a"], [0x32], [0x31], run, htell, hx,
    so.tree.reachable so.attached hi, hfile, toOption_eq_some.mp hnames, hdata,
    toOption_eq_some.mp hstale, by decide⟩

end ProjectRun

end PackageOutline
