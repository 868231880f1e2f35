import PackageOutline.Proofs.Outline.Showing
import PackageOutline.Proofs.Tree.PathEdits

/-! # Edits as changes of the image at paths

What an edit makes of the image of the root, said in terms of the image alone: supplying contents
for a file writes the file at its path (`WellFormed.plainImage_setContents`), and removing an item
leaves out the entries at the paths of the folders and files that go (`Cut.plainImage`).

Both proofs compare listings.  `Complete.plainImage_root` gives the image of the root from its
listing, and `Complete.of_stays` says that an edit leaves an outline complete when it leaves what
remains in its place. -/

namespace PackageOutline

namespace Outline

variable {o o' : Outline} {h p x y : Handle} {i j : Item} {t : FileTree} {gone l : List Handle}

/-! ### Paths and places -/

theorem WellFormed.diskPath_prefix (w : o.WellFormed) (a : o.Attached) (hb : o.Below x y) :
    o.diskPath x <+: o.diskPath y := by
  induction hb with
  | self => exact List.prefix_rfl
  | step hi hp hb ih =>
      obtain ⟨j, hj, -⟩ := w.parent_of a hi hp
      obtain ⟨l, hl⟩ := w.exists_line a hj
      rw [w.diskPath_child hl hi hp]
      exact ih.trans (List.prefix_append _ _)

theorem WellFormed.exists_above_at (w : o.WellFormed) (a : o.Attached) (hi : o.get? x = some i)
    {names : List String} (hn : names ≠ []) (hp : names <+: o.diskPath x) :
    ∃ z, o.Below z x ∧ o.isOnDisk z = true ∧ o.diskPath z = names := by
  refine w.parent_induction (P := fun x => names <+: o.diskPath x →
    ∃ z, o.Below z x ∧ o.isOnDisk z = true ∧ o.diskPath z = names) ?_ x i hi hp
  intro x i hi ih hp
  by_cases hroot : x = Outline.root
  · rw [hroot, w.diskPath_root, List.prefix_nil] at hp
    exact absurd hp hn
  obtain ⟨q, j, hq, hj, -⟩ := a hi hroot
  obtain ⟨l, hl⟩ := w.exists_line a hj
  have hpath := w.diskPath_child hl hi hq
  -- either the path ends with the item itself, or it passes the same way as that of the parent
  have above : names <+: o.diskPath q →
      ∃ z, o.Below z x ∧ o.isOnDisk z = true ∧ o.diskPath z = names := fun hpq => by
    obtain ⟨z, hz, hdisk, hnames⟩ := ih q j hq hj hpq
    exact ⟨z, .step hi hq hz, hdisk, hnames⟩
  cases hk : i.kind.namesPath with
  | false =>
      rw [Item.pathPart, hk] at hpath
      refine above ?_
      rw [hpath] at hp
      simpa using hp
  | true =>
      rw [Item.pathPart, hk, if_pos rfl] at hpath
      rw [hpath, List.prefix_concat_iff, ← hpath] at hp
      rcases hp with hself | hp
      · exact ⟨x, .self, by rw [isOnDisk_eq hi, hk], hself.symm⟩
      · exact above hp

/-- In a complete outline only what stands below a folder or file has a path that goes through its
own. -/
theorem Complete.below_of_prefix (c : o.Complete) (w : o.WellFormed) (a : o.Attached)
    (hx : x ∈ o.onDisk Outline.root) (hj : o.get? y = some j)
    (hp : o.diskPath x <+: o.diskPath y) : o.Below x y := by
  obtain ⟨hrx, hdx⟩ := (w.mem_onDisk_root_iff a).mp hx
  obtain ⟨i, hi⟩ := w.live_of_reachable hrx
  rw [isOnDisk_eq hi] at hdx
  obtain ⟨z, hz, hdisk, hpath⟩ := w.exists_above_at a hj (w.diskPath_ne_nil a hi hdx) hp
  obtain ⟨k, hk⟩ : ∃ k, o.get? z = some k := by
    obtain ⟨l, hl⟩ := w.exists_line a hj
    exact hl.live z (hl.mem_iff.mpr hz)
  have hzr : z ∈ o.onDisk Outline.root := (w.mem_onDisk_root_iff a).mpr ⟨w.reachable a hk, hdisk⟩
  rwa [← c.paths_of_diskPath w a hzr hx hpath]

/-- The paths of the folders and files at and below an item. -/
def pathsOf (o : Outline) (h : Handle) : List (List String) := (o.onDisk h).map o.diskPath

theorem WellFormed.mem_pathsOf_iff (w : o.WellFormed) (a : o.Attached) (hi : o.get? h = some i)
    {names : List String} : names ∈ o.pathsOf h ↔
      ∃ y, o.Below h y ∧ o.isOnDisk y = true ∧ o.diskNames y = .ok names := by
  simp only [pathsOf, List.mem_map, onDisk, List.mem_filter, w.mem_family_iff a hi, and_assoc]
  refine exists_congr fun y => and_congr_right fun hy => and_congr_right fun _ => ?_
  obtain ⟨k, hk⟩ := hy.live hi
  rw [w.diskNames_of_get? a hk, Except.ok.injEq]

theorem Complete.mem_pathsOf_iff (c : o.Complete) (w : o.WellFormed) (a : o.Attached)
    (hi : o.get? h = some i) (hx : x ∈ o.onDisk Outline.root) :
    o.diskPath x ∈ o.pathsOf h ↔ x ∈ o.family h := by
  constructor
  · intro hmem
    obtain ⟨y, hy, hxy⟩ := List.mem_map.mp hmem
    obtain ⟨hyf, hyd⟩ := List.mem_filter.mp hy
    obtain ⟨k, hk⟩ := w.live_of_mem_family hi hyf
    have hyr := (w.mem_onDisk_root_iff a).mpr ⟨w.reachable a hk, hyd⟩
    rwa [← c.paths_of_diskPath w a hyr hx hxy]
  · intro hxf
    exact List.mem_map_of_mem (List.mem_filter.mpr ⟨hxf, (List.mem_filter.mp hx).2⟩)

/-! ### Items that stay in their places -/

/-- An item is a folder or file as before, and has the path that it had. -/
structure Stays (o o' : Outline) (x : Handle) : Prop where
  onDisk : o'.isOnDisk x = o.isOnDisk x
  file : o'.isFile x = o.isFile x
  path : o'.diskPath x = o.diskPath x

theorem WellFormed.stays (w : o.WellFormed) (w' : o'.WellFormed) (hl : o.Line x l)
    (hs : ∀ y ∈ l, (o'.get? y).map Item.stem = (o.get? y).map Item.stem) : Stays o o' x := by
  have hkind : (o'.get? x).map Item.kind = (o.get? x).map Item.kind := by
    have := congrArg (Option.map Prod.fst) (hs x hl.self_mem)
    rwa [Option.map_map, Option.map_map] at this
  exact ⟨isOnDisk_congr hkind, isFile_congr hkind, w.diskPath_of_stem w' hl hs⟩

/-- An outline stays complete when what it has stays in place, and with data. -/
theorem Complete.of_stays (c : o.Complete) (w : o.WellFormed) (a : o.Attached)
    (w' : o'.WellFormed) (a' : o'.Attached) (hs : ∀ {x}, o'.Reachable x →
      o.Reachable x ∧ Stays o o' x ∧ (o.data x ≠ none → o'.data x ≠ none)) : o'.Complete := by
  constructor
  · intro f hf hfile
    obtain ⟨hr, st, hdata⟩ := hs hf
    obtain ⟨b, hb⟩ := c.data hr (st.file ▸ hfile)
    exact Option.ne_none_iff_exists'.mp (hdata (by rw [hb]; exact Option.some_ne_none b))
  · intro x y hx hy hdx hdy hxy
    obtain ⟨hrx, sx, -⟩ := hs hx
    obtain ⟨hry, sy, -⟩ := hs hy
    obtain ⟨i, hi⟩ := w'.live_of_reachable hx
    obtain ⟨j, hj⟩ := w'.live_of_reachable hy
    rw [w'.diskNames_of_get? a' hi, w'.diskNames_of_get? a' hj, sx.path, sy.path] at hxy
    exact c.paths_of_diskPath w a ((w.mem_onDisk_root_iff a).mpr ⟨hrx, sx.onDisk ▸ hdx⟩)
      ((w.mem_onDisk_root_iff a).mpr ⟨hry, sy.onDisk ▸ hdy⟩) (Except.ok.inj hxy)

theorem Complete.exists_plainImage (c : o.Complete) (w : o.WellFormed) (a : o.Attached) :
    ∃ t, o.plainImage Outline.root = .ok t := by
  cases hp : o.plainImage Outline.root with
  | error e => exact absurd c (w.blames a hp).2
  | ok t => exact ⟨t, rfl⟩

/-- It is the directory with the listing of the outline. -/
theorem Complete.plainImage_root (c : o.Complete) (w : o.WellFormed) (a : o.Attached)
    (hd : t.isDir = true) (hl : t.listing [] = (o.onDisk Outline.root).map o.record) :
    o.plainImage Outline.root = .ok t := by
  obtain ⟨u, hu⟩ := c.exists_plainImage w a
  obtain ⟨-, hdir, hlist⟩ := w.listing_root a hu
  have hc : u.contents? = t.contents? := by
    cases u <;> cases t <;> simp_all [Tree.isDir, Tree.contents?]
  rw [hu, Tree.eq_of_listing [] u t hc (hlist.trans hl.symm)]

/-! ### Contents -/

theorem WellFormed.stays_setContents (w : o.WellFormed) (a : o.Attached) (hi : o.get? h = some i)
    (c : Bytes) (hj : o.get? x = some j) :
    Stays o (o.set h { i with contents := some c }) x ∧
      (o.set h { i with contents := some c }).data x = if x = h then some c else o.data x := by
  have ag : AgreeOn Item.frame o (o.set h { i with contents := some c }) := .set hi rfl
  obtain ⟨l, hl⟩ := w.exists_line a hj
  have st := w.stays (w.congr ag) hl fun y _ => ag.stem.get y
  refine ⟨st, ?_⟩
  unfold data
  rw [get?_set hi, st.path, document_set]
  by_cases hx : x = h
  · rw [if_pos hx, if_pos hx, Option.bind_some]
  · rw [if_neg hx, if_neg hx]

theorem Complete.map_record_setContents (complete : o.Complete) (w : o.WellFormed)
    (a : o.Attached) (hi : o.get? h = some i) (hk : i.kind = .file) (c : Bytes) :
    ((o.set h { i with contents := some c }).onDisk Outline.root).map
        (o.set h { i with contents := some c }).record =
      ((o.onDisk Outline.root).map o.record).map (Tree.rewritten c (o.diskPath h)) := by
  have ag : AgreeOn Item.frame o (o.set h { i with contents := some c }) := .set hi rfl
  have hondisk : (o.set h { i with contents := some c }).onDisk Outline.root =
      o.onDisk Outline.root := by
    unfold onDisk
    rw [ag.links.family]
    refine List.filter_congr fun x hx => ?_
    obtain ⟨j, hj⟩ := w.live_of_reachable ((w.mem_family_root a).mp hx)
    exact (w.stays_setContents a hi c hj).1.onDisk
  rw [hondisk, List.map_map]
  refine List.map_congr_left fun x hx => ?_
  obtain ⟨j, hj⟩ := w.live_of_reachable ((w.mem_onDisk_root_iff a).mp hx).1
  obtain ⟨st, hdata⟩ := w.stays_setContents a hi c hj
  show _ = Tree.rewritten c (o.diskPath h) (o.record x)
  unfold Tree.rewritten record
  rw [st.path, st.file, hdata]
  by_cases hxh : x = h
  · subst hxh
    rw [isFile_eq hi, hk]
    simp [Kind.holdsData]
  · have hself := w.mem_onDisk_root a hi (by rw [hk]; rfl)
    have hne : o.diskPath x ≠ o.diskPath h := fun hpath =>
      hxh (complete.paths_of_diskPath w a hx hself hpath)
    simp [hxh, hne]

/-- Supplying contents for a file writes it in the image of the root. -/
theorem WellFormed.plainImage_setContents (w : o.WellFormed) (a : o.Attached)
    (hi : o.get? h = some i) (hk : i.kind = .file) (c : Bytes)
    (ht : o.plainImage Outline.root = .ok t) :
    (o.set h { i with contents := some c }).plainImage Outline.root =
      .ok (t.write c (o.diskPath h)) := by
  have ag : AgreeOn Item.frame o (o.set h { i with contents := some c }) := .set hi rfl
  have w' := w.congr ag
  have a' := a.congr ag.links
  have complete := w.complete_of_plainImage a ht
  have hnames : i.kind.namesPath = true := by rw [hk]; rfl
  have complete' : (o.set h { i with contents := some c }).Complete := by
    refine complete.of_stays w a w' a' fun {x} hx => ?_
    obtain ⟨j', hj'⟩ := w'.live_of_reachable hx
    obtain ⟨j, hj, -⟩ := ag.symm.get?_eq_some hj'
    obtain ⟨st, hdata⟩ := w.stays_setContents a hi c hj
    refine ⟨w.reachable a hj, st, ?_⟩
    rw [hdata]
    split <;> simp
  obtain ⟨-, hdir, hlist⟩ := w.listing_root a ht
  refine complete'.plainImage_root w' a' ?_ ?_
  · rw [Tree.isDir_write c (w.diskPath_ne_nil a hi hnames), hdir]
  · rw [complete.map_record_setContents w a hi hk c, ← hlist]
    refine Tree.listing_write c _ [] t fun e he m ms hpath => ?_
    rw [hlist] at he
    obtain ⟨x, hx, rfl⟩ := List.mem_map.mp he
    obtain ⟨j, hj⟩ := w.live_of_reachable ((w.mem_onDisk_root_iff a).mp hx).1
    have hpath : o.diskPath x = o.diskPath h ++ m :: ms := hpath
    have hb := complete.below_of_prefix w a (w.mem_onDisk_root a hi hnames) hj ⟨_, hpath.symm⟩
    -- nothing stands below a file
    rcases hb.cases_child w a hi with rfl | ⟨d, hd, -⟩
    · simp at hpath
    · rw [w.children_file hi hk] at hd
      cases hd

/-! ### Removals -/

theorem flatMap_filter_of {α β : Type} {q : α → Bool} {f g : α → List β} {l : List α}
    (hf : ∀ a ∈ l, q a = true → f a = g a) (hg : ∀ a ∈ l, q a = false → g a = []) :
    (l.filter q).flatMap f = l.flatMap g := by
  induction l with
  | nil => rfl
  | cons a l ih =>
      have ih := ih (fun b hb => hf b (List.mem_cons_of_mem _ hb))
        fun b hb => hg b (List.mem_cons_of_mem _ hb)
      cases hq : q a with
      | true =>
          rw [List.filter_cons_of_pos hq, List.flatMap_cons, List.flatMap_cons, ih,
            hf a List.mem_cons_self hq]
      | false =>
          rw [List.filter_cons_of_neg (by rw [hq]; exact Bool.false_ne_true), ih, List.flatMap_cons,
            hg a List.mem_cons_self hq, List.nil_append]

namespace Cut

theorem family (c : Cut gone o o') (w : o.WellFormed) (w' : o'.WellFormed)
    (down : ∀ {x y}, x ∈ gone → o.Below x y → y ∈ gone) (hi : o.get? x = some i) (hx : x ∉ gone) :
    o'.family x = (o.family x).filter (· ∉ gone) := by
  refine w.child_induction (P := fun x => x ∉ gone →
    o'.family x = (o.family x).filter (· ∉ gone)) ?_ x i hi hx
  intro x i hi ih hx
  rw [w.family_eq hi, w'.family_eq (c.now hx hi), List.filter_cons, if_pos (decide_eq_true hx)]
  congr 1
  show (i.children.filter (· ∉ gone)).flatMap o'.family = _
  rw [List.filter_flatMap]
  refine flatMap_filter_of (fun d hd hdg => ih d hd (of_decide_eq_true hdg)) fun d hd hdg => ?_
  obtain ⟨k, hk, -⟩ := w.child hi hd
  refine List.filter_eq_nil_iff.mpr fun y hy => ?_
  have hyg := down (by simpa using hdg) (w.below_of_mem_family hk hy)
  simpa using hyg

/-- What is left of a family stays in its place, and keeps its data. -/
theorem stays (c : Cut gone o o') (w : o.WellFormed) (a : o.Attached) (w' : o'.WellFormed)
    (down : ∀ {x y}, x ∈ gone → o.Below x y → y ∈ gone) (hi : o.get? x = some i) (hx : x ∉ gone) :
    Stays o o' x ∧ o'.data x = o.data x := by
  obtain ⟨l, hl⟩ := w.exists_line a hi
  have st := w.stays w' hl fun y hy => c.stem fun hyg => hx (down hyg (hl.mem_iff.mp hy))
  refine ⟨st, ?_⟩
  unfold data
  rw [c.now hx hi, hi, c.document, st.path, Option.bind_some, Option.bind_some]

theorem map_record_onDisk (c : Cut gone o o') (w : o.WellFormed) (a : o.Attached)
    (w' : o'.WellFormed) (down : ∀ {x y}, x ∈ gone → o.Below x y → y ∈ gone)
    (hi : o.get? x = some i) (hx : x ∉ gone) : (o'.onDisk x).map o'.record =
      ((o.onDisk x).filter (· ∉ gone)).map o.record := by
  have left : ∀ y ∈ (o.family x).filter (· ∉ gone), Stays o o' y ∧ o'.data y = o.data y := by
    intro y hy
    obtain ⟨hyf, hyg⟩ := List.mem_filter.mp hy
    obtain ⟨k, hk⟩ := w.live_of_mem_family hi hyf
    exact c.stays w a w' down hk (of_decide_eq_true hyg)
  unfold onDisk
  rw [c.family w w' down hi hx, List.filter_congr fun y hy => (left y hy).1.onDisk]
  rw [List.filter_comm]
  refine List.map_congr_left fun y hy => ?_
  rw [List.filter_comm] at hy
  obtain ⟨st, hdata⟩ := left y (List.mem_of_mem_filter hy)
  rw [record, record, st.path, st.file, hdata]

end Cut

/-- Without the family of an item the image of the root lacks the entries at its paths. -/
theorem Cut.plainImage (c : Cut (o.family h) o o') (w : o.WellFormed) (a : o.Attached)
    (hi : o.get? h = some i) (hp : i.parent = some p) (ht : o.plainImage Outline.root = .ok t) :
    o'.plainImage Outline.root = .ok (t.without (o.pathsOf h)) := by
  have hroot := w.root_not_mem_family hi hp
  have w' := c.wellFormed w hroot
  have a' := c.attached a (w.mem_family_of_parent a hi)
  have complete := w.complete_of_plainImage a ht
  have gone : ∀ {x}, x ∈ o.family h ↔ o.Below h x := w.mem_family_iff a hi
  have down : ∀ {x y}, x ∈ o.family h → o.Below x y → y ∈ o.family h :=
    fun hx hb => gone.mpr ((gone.mp hx).trans hb)
  obtain ⟨r, hr, -⟩ := w.root
  have complete' : o'.Complete := by
    refine complete.of_stays w a w' a' fun {x} hx => ?_
    obtain ⟨k', hk'⟩ := w'.live_of_reachable hx
    obtain ⟨hxg, k, hk, -⟩ := c.old hk'
    obtain ⟨st, hdata⟩ := c.stays w a w' down hk hxg
    exact ⟨w.reachable a hk, st, by rw [hdata]; exact id⟩
  have paths : ∀ {x}, x ∈ o.onDisk Outline.root → (o.diskPath x ∈ o.pathsOf h ↔ x ∈ o.family h) :=
    complete.mem_pathsOf_iff w a hi
  obtain ⟨-, hdir, hlist⟩ := w.listing_root a ht
  refine complete'.plainImage_root w' a' (by rw [Tree.isDir_without, hdir]) ?_
  rw [Tree.without, Tree.listing_prune _ [] t ?_, hlist, List.filter_map,
    c.map_record_onDisk w a w' down hr hroot]
  · congr 1
    refine List.filter_congr fun x hx => ?_
    exact decide_eq_decide.mpr (not_congr (paths hx))
  · rw [hlist]
    intro e he e' he' hpre hgone
    obtain ⟨x, hx, rfl⟩ := List.mem_map.mp he
    obtain ⟨y, hy, rfl⟩ := List.mem_map.mp he'
    obtain ⟨k, hk⟩ := w.live_of_reachable ((w.mem_onDisk_root_iff a).mp hy).1
    exact (paths hy).mpr (down ((paths hx).mp hgone) (complete.below_of_prefix w a hx hk hpre))

end Outline

end PackageOutline
