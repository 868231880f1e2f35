import PackageOutline.Proofs.Outline.Runs

/-! # What the root materialises to

The image of the root can be made exactly when every file has data and no two folders or files have
one path (`Outline.Complete`).  Then it shows them all, each once, at their paths and in the order of
the walk (`Outline.Shows`); otherwise the error names a file without data or a path that two items
have (`Outline.Blames`).

`EditRun.image_root` is the theorem about editing runs. -/

namespace PackageOutline

namespace Outline

variable {α : Type} {o : Outline} {x : Handle} {i : Item} {t : FileTree}

/-- Whether the item of a handle is a folder. -/
def isFolder (o : Outline) (x : Handle) : Bool := (o.get? x).any (·.kind == .folder)

/-- All files have data, and all folders and files have paths of their own. -/
structure Complete (o : Outline) : Prop where
  data : ∀ {f}, o.Reachable f → o.isFile f = true → ∃ c, o.data f = some c
  paths : ∀ {x y}, o.Reachable x → o.Reachable y → o.isOnDisk x = true → o.isOnDisk y = true →
    o.diskNames x = o.diskNames y → x = y

/-- The name of a folder or file that lies in the directory at a path. -/
def nameBelow (o : Outline) (names : List String) (x : Handle) : Option String :=
  match o.get? x, o.diskNames x with
  | some i, .ok path => if i.kind.namesPath ∧ path = names ++ [i.name] then some i.name else none
  | _, _ => none

/-- The tree has the folders and files among some items, at their paths and in their order, and
nothing else. -/
structure Shows (o : Outline) (items : List Handle) (t : Tree α) : Prop where
  named : t.WellNamed
  top : t.isDir = true
  files : ∀ names c, (∃ u, t.find? names = some u ∧ u.contents? = some c) ↔
    ∃ f ∈ items, o.isFile f = true ∧ o.diskNames f = .ok names ∧ o.data f = some c
  folders : ∀ names, (∃ u, t.find? names = some u ∧ u.isDir = true) ↔
    ∃ d ∈ items, o.isFolder d = true ∧ o.diskNames d = .ok names
  order : ∀ names u, t.at? names = some u → u.names = items.filterMap (o.nameBelow names)
  count : t.fileCount = items.countP o.isFile

/-- The error names a file without data, or a path that two folders or files have. -/
inductive Blames (o : Outline) : Failure → Prop
  | missing {f : Handle} {names : List String} : o.Reachable f → o.isFile f = true →
      o.data f = none → o.diskNames f = .ok names → Blames o (.error (.missingData (.ofNames names)))
  | conflict {x y : Handle} {names : List String} : o.Reachable x → o.Reachable y →
      o.isOnDisk x = true → o.isOnDisk y = true → x ≠ y → o.diskNames x = .ok names →
      o.diskNames y = .ok names → Blames o (.error (.conflict (.ofNames names)))

/-! ### Paths -/

theorem WellFormed.diskNames_of_get? (w : o.WellFormed) (a : o.Attached)
    (hi : o.get? x = some i) : o.diskNames x = .ok (o.diskPath x) := by
  obtain ⟨l, hl⟩ := w.exists_line a hi
  exact w.diskNames_eq_diskPath hl

theorem WellFormed.mem_family_root (w : o.WellFormed) (a : o.Attached) :
    x ∈ o.family Outline.root ↔ o.Reachable x := by
  obtain ⟨r, hr, -⟩ := w.root
  constructor
  · intro hx
    obtain ⟨i, hi⟩ := w.live_of_mem_family hr hx
    exact w.reachable a hi
  · intro hx
    obtain ⟨i, hi⟩ := w.live_of_reachable hx
    exact (w.mem_family_iff a hr).mpr (w.below_root a hi)

theorem WellFormed.mem_onDisk_root_iff (w : o.WellFormed) (a : o.Attached) :
    x ∈ o.onDisk Outline.root ↔ o.Reachable x ∧ o.isOnDisk x = true := by
  rw [onDisk, List.mem_filter, w.mem_family_root a]

theorem isOnDisk_of_isFile (hf : o.isFile x = true) : o.isOnDisk x = true := by
  obtain ⟨i, hi, hk⟩ := (Option.any_eq_true ..).mp hf
  have hkind : i.kind = .file := by simpa [Kind.holdsData] using hk
  rw [isOnDisk_eq hi, hkind]
  rfl

theorem isFolder_iff : o.isFolder x = true ↔ o.isOnDisk x = true ∧ o.isFile x = false := by
  unfold isFolder isOnDisk isFile
  cases o.get? x with
  | none => simp
  | some i => cases hk : i.kind <;> simp [hk, Kind.namesPath, Kind.holdsData]

theorem Complete.paths_of_diskPath (c : o.Complete) (w : o.WellFormed) (a : o.Attached)
    {y : Handle} (hx : x ∈ o.onDisk Outline.root) (hy : y ∈ o.onDisk Outline.root)
    (hxy : o.diskPath x = o.diskPath y) : x = y := by
  obtain ⟨hrx, hdx⟩ := (w.mem_onDisk_root_iff a).mp hx
  obtain ⟨hry, hdy⟩ := (w.mem_onDisk_root_iff a).mp hy
  obtain ⟨i, hi⟩ := w.live_of_reachable hrx
  obtain ⟨j, hj⟩ := w.live_of_reachable hry
  exact c.paths hrx hry hdx hdy (by rw [w.diskNames_of_get? a hi, w.diskNames_of_get? a hj, hxy])

/-! ### The image -/

theorem WellFormed.complete_of_plainImage (w : o.WellFormed) (a : o.Attached)
    (ht : o.plainImage Outline.root = .ok t) : o.Complete := by
  obtain ⟨r, hr, -⟩ := w.root
  obtain ⟨hnamed, -, hlist⟩ := w.listing_root a ht
  constructor
  · intro f hf hfile
    have hd := w.data_of_plainImage hr ht f ((w.mem_family_root a).mpr hf) hfile
    exact Option.ne_none_iff_exists'.mp hd
  · intro x y hx hy hdx hdy hxy
    obtain ⟨i, hi⟩ := w.live_of_reachable hx
    obtain ⟨j, hj⟩ := w.live_of_reachable hy
    rw [w.diskNames_of_get? a hi, w.diskNames_of_get? a hj] at hxy
    have hnodup := Tree.nodup_listing [] t hnamed
    rw [hlist, List.map_map] at hnodup
    exact List.inj_on_of_nodup_map hnodup ((w.mem_onDisk_root_iff a).mpr ⟨hx, hdx⟩)
      ((w.mem_onDisk_root_iff a).mpr ⟨hy, hdy⟩) (Except.ok.inj hxy)

/-- When the image of the root cannot be made, the error tells why the outline is not complete. -/
theorem WellFormed.blames (w : o.WellFormed) (a : o.Attached) {e : Failure}
    (he : o.plainImage Outline.root = .error e) : o.Blames e ∧ ¬ o.Complete := by
  obtain ⟨r, hr, -⟩ := w.root
  cases w.plainImage_error a hr he with
  | missing hf hfile hd =>
      obtain ⟨hrf, -⟩ := (w.mem_onDisk_root_iff a).mp hf
      obtain ⟨i, hi⟩ := w.live_of_reachable hrf
      refine ⟨.missing hrf hfile hd (w.diskNames_of_get? a hi), fun c => ?_⟩
      obtain ⟨b, hb⟩ := c.data hrf hfile
      rw [hd] at hb
      cases hb
  | conflict hx hy hne hxy =>
      obtain ⟨hrx, hdx⟩ := (w.mem_onDisk_root_iff a).mp hx
      obtain ⟨hry, hdy⟩ := (w.mem_onDisk_root_iff a).mp hy
      obtain ⟨i, hi⟩ := w.live_of_reachable hrx
      obtain ⟨j, hj⟩ := w.live_of_reachable hry
      refine ⟨.conflict hrx hry hdx hdy hne (w.diskNames_of_get? a hi) ?_, fun c => ?_⟩
      · rw [w.diskNames_of_get? a hj, hxy]
      · exact hne (c.paths_of_diskPath w a hx hy hxy)

theorem WellFormed.nameBelow_eq (w : o.WellFormed) (a : o.Attached) (hi : o.get? x = some i)
    (names : List String) : o.nameBelow names x =
      if o.isOnDisk x then Tree.nameIn names (o.record x) else none := by
  have hrecord : (o.record x).1 = o.diskPath x := rfl
  unfold nameBelow
  rw [hi, w.diskNames_of_get? a hi, isOnDisk_eq hi]
  show (if i.kind.namesPath = true ∧ o.diskPath x = names ++ [i.name] then some i.name else none) = _
  cases hp : i.kind.namesPath with
  | false => simp
  | true =>
      obtain ⟨path, hpath⟩ : ∃ path, o.diskPath x = path ++ [i.name] := by
        obtain ⟨p, j, hparent, hj, -⟩ := a hi (w.ne_root hi hp)
        obtain ⟨l, hl⟩ := w.exists_line a hj
        exact ⟨_, by rw [w.diskPath_child hl hi hparent, Item.pathPart, if_pos hp]⟩
      simp only [Tree.nameIn, hrecord, hpath, List.dropLast_concat, List.getLast?_concat,
        List.append_left_inj, true_and, ↓reduceIte]

theorem WellFormed.exists_record_iff (w : o.WellFormed) (a : o.Attached) {names : List String}
    {c : Option Bytes} : (∃ x ∈ o.onDisk Outline.root, o.record x = (names, c)) ↔
      ∃ x ∈ o.family Outline.root, o.isOnDisk x = true ∧ o.diskNames x = .ok names ∧
        (if o.isFile x then o.data x else none) = c := by
  have hpaths : ∀ {x}, x ∈ o.family Outline.root →
      (o.diskNames x = .ok names ↔ o.diskPath x = names) := by
    intro x hx
    obtain ⟨i, hi⟩ := w.live_of_reachable ((w.mem_family_root a).mp hx)
    rw [w.diskNames_of_get? a hi]
    exact ⟨Except.ok.inj, congrArg _⟩
  constructor
  · rintro ⟨x, hx, hrecord⟩
    obtain ⟨hx, hdisk⟩ := List.mem_filter.mp hx
    obtain ⟨hpath, hcontents⟩ := Prod.mk.inj hrecord
    exact ⟨x, hx, hdisk, (hpaths hx).mpr hpath, hcontents⟩
  · rintro ⟨x, hx, hdisk, hpath, hcontents⟩
    exact ⟨x, List.mem_filter.mpr ⟨hx, hdisk⟩, Prod.ext ((hpaths hx).mp hpath) hcontents⟩

theorem WellFormed.exists_file_iff (w : o.WellFormed) (a : o.Attached) {names : List String}
    {b : Bytes} : (∃ x ∈ o.onDisk Outline.root, o.record x = (names, some b)) ↔
      ∃ f ∈ o.family Outline.root, o.isFile f = true ∧ o.diskNames f = .ok names ∧
        o.data f = some b := by
  rw [w.exists_record_iff a]
  constructor
  · rintro ⟨x, hx, -, hpath, hcontents⟩
    split at hcontents
    · exact ⟨x, hx, ‹_›, hpath, hcontents⟩
    · cases hcontents
  · rintro ⟨f, hf, hfile, hpath, hdata⟩
    exact ⟨f, hf, isOnDisk_of_isFile hfile, hpath, by rw [if_pos hfile, hdata]⟩

theorem Complete.exists_folder_iff (c : o.Complete) (w : o.WellFormed) (a : o.Attached)
    {names : List String} : (∃ x ∈ o.onDisk Outline.root, o.record x = (names, none)) ↔
      ∃ d ∈ o.family Outline.root, o.isFolder d = true ∧ o.diskNames d = .ok names := by
  rw [w.exists_record_iff a]
  constructor
  · rintro ⟨x, hx, hdisk, hpath, hcontents⟩
    refine ⟨x, hx, isFolder_iff.mpr ⟨hdisk, ?_⟩, hpath⟩
    cases hfile : o.isFile x with
    | false => rfl
    | true =>
        obtain ⟨b, hb⟩ := c.data ((w.mem_family_root a).mp hx) hfile
        rw [hfile, if_pos rfl, hb] at hcontents
        cases hcontents
  · rintro ⟨d, hd, hfolder, hpath⟩
    obtain ⟨hdisk, hfile⟩ := isFolder_iff.mp hfolder
    exact ⟨d, hd, hdisk, hpath, by simp [hfile]⟩

/-- The image of the root has the folders and files with their contents, at their paths. -/
theorem WellFormed.find?_iff (w : o.WellFormed) (a : o.Attached) {t : SharedTree}
    (ht : o.plainImage Outline.root = .ok t.plain) {names : List String} {c : Option Bytes} :
    (∃ u, t.find? names = some u ∧ u.contents? = c) ↔
      ∃ x ∈ o.onDisk Outline.root, o.record x = (names, c) := by
  by_cases hn : names = []
  · -- nothing is found at the empty path, and no folder or file has it
    subst hn
    refine iff_of_false (fun ⟨u, hu, _⟩ => by cases hu) ?_
    rintro ⟨x, hx, hrecord⟩
    obtain ⟨hr, hd⟩ := (w.mem_onDisk_root_iff a).mp hx
    obtain ⟨i, hi⟩ := w.live_of_reachable hr
    rw [isOnDisk_eq hi] at hd
    exact w.diskPath_ne_nil a hi hd (congrArg Prod.fst hrecord)
  · exact w.find?_root a ht hn

/-- The image of the root shows the folders and files of the outline. -/
theorem WellFormed.shows (w : o.WellFormed) (a : o.Attached) {t : SharedTree}
    (ht : o.plainImage Outline.root = .ok t.plain) :
    o.Shows (o.family Outline.root) t := by
  have complete := w.complete_of_plainImage a ht
  obtain ⟨hnamed, hdir, hlist⟩ := w.listing_root a ht
  have hnamed' : t.WellNamed := (Tree.wellNamed_map_iff _ t).mp hnamed
  rw [Tree.plain, Tree.listing_map] at hlist
  have hdir' : t.isDir = true := by
    cases t with
    | file l c => cases hdir
    | dir l es => rfl
  constructor
  case named => exact hnamed'
  case top => exact hdir'
  case files => exact fun names c => by rw [w.find?_iff a ht, w.exists_file_iff a]
  case folders =>
    intro names
    have hdirs : (∃ u, t.find? names = some u ∧ u.isDir = true) ↔
        ∃ u, t.find? names = some u ∧ u.contents? = none := by
      refine exists_congr fun u => and_congr_right fun _ => ?_
      cases u <;> simp [Tree.isDir, Tree.contents?]
    rw [hdirs, w.find?_iff a ht, complete.exists_folder_iff w a]
  case order =>
    intro names u hu
    have hnames := hnamed'.names_at [] hu
    rw [List.nil_append, hlist, onDisk, List.filterMap_map, List.filterMap_filter] at hnames
    rw [← hnames]
    refine (List.filterMap_congr fun x hx => ?_).symm
    obtain ⟨i, hi⟩ := w.live_of_reachable ((w.mem_family_root a).mp hx)
    exact w.nameBelow_eq a hi names
  case count =>
    rw [Tree.fileCount_eq [], hlist, hdir', if_pos rfl, Nat.add_zero, List.countP_map, onDisk,
      List.countP_filter]
    refine List.countP_congr fun x hx => ?_
    cases hfile : o.isFile x with
    | false => simp [record, hfile]
    | true =>
        obtain ⟨c, hc⟩ := complete.data ((w.mem_family_root a).mp hx) hfile
        simp [record, hfile, hc, isOnDisk_of_isFile hfile]

end Outline

/-! ### On editing runs -/

/-- What asking for the image of the root gives on an editing run. -/
theorem EditRun.image_root {W : Workspace} (run : EditRun W) (held : List SharedTree) :
    ∃ walk, W.outline.walk Outline.root = .ok walk ∧
      (walk.map Prod.fst).Nodup ∧ (∀ x, x ∈ walk.map Prod.fst ↔ W.outline.Reachable x) ∧
      ((∃ t, (exec (Workspace.image held Outline.root) W).1 = .ok t) ↔ W.outline.Complete) ∧
      (∀ t, (exec (Workspace.image held Outline.root) W).1 = .ok t →
        W.outline.Shows (walk.map Prod.fst) t) ∧
      ∀ e, (exec (Workspace.image held Outline.root) W).1 = .error e → W.outline.Blames e := by
  have w := run.sound.tree
  have a := run.sound.attached
  obtain ⟨i, hi, -⟩ := w.root
  have hplain : (exec (Workspace.image held Outline.root) W).1.map Tree.plain =
      W.outline.plainImage Outline.root := (Workspace.exec_image run.sound hi rfl).1
  refine ⟨_, w.walk_eq hi, w.nodup_family hi, fun x => w.mem_family_root a, ?_⟩
  cases hr : (exec (Workspace.image held Outline.root) W).1 with
  | error e =>
      rw [hr] at hplain
      obtain ⟨hblames, hnot⟩ := w.blames a hplain.symm
      refine ⟨iff_of_false (fun ⟨t, ht⟩ => by cases ht) hnot, fun t ht => (by cases ht), ?_⟩
      intro e' he
      rwa [← Except.error.inj he]
  | ok t =>
      rw [hr] at hplain
      refine ⟨iff_of_true ⟨t, rfl⟩ (w.complete_of_plainImage a hplain.symm), ?_,
        fun e he => by cases he⟩
      intro u hu
      rw [← Except.ok.inj hu]
      exact w.shows a hplain.symm

/-- A group and a folder, both with a file `a`, and another file in the folder: the files of the
group lie in the directory that the group lies in. -/
theorem EditRun.image_root_of_group : ∃ W : Workspace, EditRun W ∧ W.outline.Complete ∧
    ∃ t walk, (exec (Workspace.image [] Outline.root) W).1 = .ok t ∧
      W.outline.walk Outline.root = .ok walk ∧ W.outline.Shows (walk.map Prod.fst) t ∧
      t.same (Tree.dir () [("d", .dir () [("a", .file () [0x31]), ("b", .file () [])]),
        ("a", .file () [0x32])]) = true := by
  obtain ⟨W, run, hW⟩ := EditRun.exists_of_play none 0
    [.edit (.add Outline.root .group "Package"),
      .edit (.add ⟨1, 0⟩ .folder "d"), .edit (.add ⟨1, 0⟩ .file "a"),
      .edit (.setContents ⟨3, 0⟩ [0x32]), .edit (.add ⟨2, 0⟩ .file "b"),
      .edit (.setContents ⟨4, 0⟩ []), .edit (.insertNew ⟨2, 0⟩ .file "a" ⟨2, 0⟩ 0),
      .edit (.setContents ⟨5, 0⟩ [0x31])]
    (fun W =>
      (exec (Workspace.image [] Outline.root) W).1.toOption.any
        (·.same (Tree.dir () [("d", .dir () [("a", .file () [0x31]), ("b", .file () [])]),
          ("a", .file () [0x32])])))
    (by decide +kernel)
  obtain ⟨t, ht, hsame⟩ := (Option.any_eq_true ..).mp hW
  have hok := toOption_eq_some.mp ht
  obtain ⟨walk, hwalk, -, -, hiff, hshows, -⟩ := run.image_root []
  exact ⟨W, run, hiff.mp ⟨t, hok⟩, t, walk, hok, hwalk, hshows t hok, hsame⟩

end PackageOutline
