import PackageOutline.Proofs.Outline.EditedImages

/-! # Renamed items

Another name for an item changes one component of the paths of what stands at and below it, or no
path at all when the item is not on disk, and files keep their data (`Outline.Renamed`).  So they
keep it along any sequence of renamings (`Renamings.keepsFile`).

The image of the root has the entry of the item under its new name, in its old place
(`Renamed.plainImage_eq`), unless another item has the new path already (`Renamed.taken_of_error`,
`Renamed.not_taken`).  `EditRun.renaming_keeps_data` is the theorem about editing runs. -/

namespace PackageOutline

namespace Outline

variable {o o' : Outline} {h x y d : Handle} {i j : Item} {name last : String} {t u : FileTree}
  {e : Failure}

/-- An item has another name: the tree has its shape, the other items add to paths what they added,
and files keep their data. -/
structure Renamed (h : Handle) (name : String) (o o' : Outline) : Prop where
  tree : o'.WellFormed
  standing : AgreeOn Item.standing o o'
  links : AgreeOn Item.links o o'
  self : (o'.get? h).map Item.name = some name
  others : ∀ {x}, x ≠ h → o'.partAt x = o.partAt x
  data : ∀ {x i c}, o.get? x = some i → i.kind = .file → o.data x = some c → o'.data x = some c

/-- The path of an item ends in another name, the paths of the items below it have that name in its
place, and no other path changes. -/
structure Relocated (o o' : Outline) (h : Handle) (dir : List String) (old new : String) :
    Prop where
  self : o.diskNames h = .ok (dir ++ [old])
  below : ∀ {x}, o.Below h x → ∃ rest, o.diskNames x = .ok (dir ++ old :: rest) ∧
    o'.diskNames x = .ok (dir ++ new :: rest)
  beside : ∀ {x}, o.Reachable x → ¬ o.Below h x → o'.diskNames x = o.diskNames x

/-- A folder or file other than an item has a path. -/
def Taken (o : Outline) (h : Handle) (names : List String) : Prop :=
  ∃ y, y ≠ h ∧ o.Reachable y ∧ o.isOnDisk y = true ∧ o.diskNames y = .ok names

theorem Sound.renamed (s : o.Sound) (hm : exec (Edit.rename h name) o = (.ok (), o')) :
    Renamed h name o o' := by
  obtain ⟨i, k, l, o₁, hi, hname, hfilled, f, hk, hmark⟩ := s.rename_eq_ok hm
  have w := s.tree
  have w₁ : (o₁.set h { k with name }).WellFormed := w.rename hi hname f.frame hk
  have links : AgreeOn Item.links o (o₁.set h { k with name }) :=
    f.frame.links.trans (.set hk rfl)
  have standing : AgreeOn Item.standing o (o₁.set h { k with name }) :=
    f.frame.stem.standing.trans (.set hk rfl)
  have a₁ : (o₁.set h { k with name }).Attached := s.attached.congr links
  obtain ⟨lh, hlh⟩ := w.exists_line s.attached hi
  have st := (w₁.markDirty_eq_ok (links.line_of_links hlh) hmark).tree
  constructor
  case tree => exact st.wellFormed w₁
  case standing => exact standing.trans st.frame.stem.standing
  case links => exact links.trans st.frame.links
  case self =>
    obtain ⟨k', hk', hkf⟩ := st.frame.get?_eq_some (get?_set_self hk { k with name })
    rw [hk', Option.map_some, (Item.frame_eq_iff.mp hkf).2.1]
  case others =>
    intro x hx
    refine partAt_congr ?_
    rw [st.frame.stem.get x, get?_set_of_ne hk _ hx, f.frame.stem.get x]
  case data =>
    intro x n c hn hfile hc
    obtain ⟨n', hn', -⟩ := links.get?_eq_some hn
    rw [st.data w₁ a₁ hn']
    exact w.data_rename s.attached hi hname hfilled f hk hn hfile hc

namespace Renamed

section

variable (r : Renamed h name o o') (w : o.WellFormed) (a : o.Attached)

include r

theorem isOnDisk (x : Handle) : o'.isOnDisk x = o.isOnDisk x :=
  isOnDisk_congr ((r.standing.comp Prod.fst fun _ => rfl).get x)

theorem isFile (x : Handle) : o'.isFile x = o.isFile x :=
  isFile_congr ((r.standing.comp Prod.fst fun _ => rfl).get x)

theorem onDisk (x : Handle) : o'.onDisk x = o.onDisk x := by
  unfold Outline.onDisk
  rw [r.links.family, funext r.isOnDisk]

theorem below_iff : o'.Below x y ↔ o.Below x y := ⟨r.links.symm.below, r.links.below⟩

include w a

theorem reachable_iff : o'.Reachable x ↔ o.Reachable x := by
  rw [← r.tree.mem_family_root (a.congr r.links), r.links.family, w.mem_family_root a]

/-! ### Paths -/

omit w in
theorem diskNames_eq (hj : o.get? x = some j) : o'.diskNames x = .ok (o'.diskPath x) := by
  obtain ⟨k, hk, -⟩ := r.links.get?_eq_some hj
  exact r.tree.diskNames_of_get? (a.congr r.links) hk

theorem diskPath_beside (hj : o.get? x = some j) (hb : ¬ o.Below h x) :
    o'.diskPath x = o.diskPath x := by
  obtain ⟨l, hl⟩ := w.exists_line a hj
  refine w.diskPath_congr r.tree hl (r.links.line_of_links hl) fun y hy => r.others ?_
  rintro rfl
  exact hb (hl.below_of_mem hy)

theorem diskPath_of_not_onDisk (hi : o.isOnDisk h = false) (hj : o.get? x = some j) :
    o'.diskPath x = o.diskPath x := by
  obtain ⟨l, hl⟩ := w.exists_line a hj
  refine w.diskPath_congr r.tree hl (r.links.line_of_links hl) fun y _ => ?_
  by_cases hy : y = h
  · have hnone : ∀ {s : Outline}, s.isOnDisk h = false → s.partAt h = [] := by
      intro s hs
      unfold partAt
      cases hk : s.get? h with
      | none => rfl
      | some k =>
          rw [isOnDisk_eq hk] at hs
          simp [Item.pathPart, hs]
    rw [hy, hnone hi, hnone ((r.isOnDisk h).trans hi)]
  · exact r.others hy

theorem diskNames_of_not_onDisk (hi : o.isOnDisk h = false) (hx : o.Reachable x) :
    o'.diskNames x = o.diskNames x := by
  obtain ⟨k, hk⟩ := w.live_of_reachable hx
  rw [r.diskNames_eq a hk, w.diskNames_of_get? a hk, r.diskPath_of_not_onDisk w a hi hk]

theorem diskPath_self (hi : o.get? h = some i) (hk : i.kind.namesPath = true) :
    ∃ p, i.parent = some p ∧ o.diskPath h = o.diskPath p ++ [i.name] ∧
      o'.diskPath h = o.diskPath p ++ [name] := by
  obtain ⟨p, m, hp, hm, hmem⟩ := a hi (w.ne_root hi hk)
  obtain ⟨l, hl⟩ := w.exists_line a hm
  obtain ⟨k, hk', hks⟩ := r.standing.get?_eq_some hi
  obtain ⟨hkk, hkp⟩ := Item.standing_eq_iff.mp hks
  have hself := r.self
  rw [hk', Option.map_some] at hself
  refine ⟨p, hp, ?_, ?_⟩
  · rw [w.diskPath_child hl hi hp, Item.pathPart, if_pos hk]
  · rw [r.tree.diskPath_child (r.links.line_of_links hl) hk' (hkp.trans hp), Item.pathPart,
      if_pos (hkk ▸ hk), Option.some.inj hself,
      r.diskPath_beside w a hm (w.not_below_parent hm hmem)]

theorem length_diskPath_self (hi : o.get? h = some i) (hk : i.kind.namesPath = true) :
    (o'.diskPath h).length = (o.diskPath h).length := by
  obtain ⟨p, -, hold, hnew⟩ := r.diskPath_self w a hi hk
  rw [hold, hnew, List.length_append, List.length_append]
  rfl

theorem diskPath_below (hb : o.Below h x) :
    ∃ rest, o.diskPath x = o.diskPath h ++ rest ∧ o'.diskPath x = o'.diskPath h ++ rest := by
  induction hb with
  | self => exact ⟨[], (List.append_nil _).symm, (List.append_nil _).symm⟩
  | @step y p k hk hp hb ih =>
      obtain ⟨rest, hold, hnew⟩ := ih
      obtain ⟨m, hm, hmem⟩ := w.parent_of a hk hp
      obtain ⟨l, hl⟩ := w.exists_line a hm
      have hy : y ≠ h := by
        rintro rfl
        exact w.not_below_parent hm hmem hb
      obtain ⟨k', hk', hks⟩ := r.standing.get?_eq_some hk
      have hpart := r.others hy
      unfold partAt at hpart
      rw [hk, hk', Option.elim_some, Option.elim_some] at hpart
      refine ⟨rest ++ k.pathPart, ?_, ?_⟩
      · rw [w.diskPath_child hl hk hp, hold, List.append_assoc]
      · rw [r.tree.diskPath_child (r.links.line_of_links hl) hk'
          ((Item.standing_eq_iff.mp hks).2.trans hp), hnew, hpart, List.append_assoc]

/-- What a renaming makes of paths. -/
theorem relocated (hi : o.get? h = some i) (hk : i.kind.namesPath = true) :
    ∃ dir, o.diskPath h = dir ++ [i.name] ∧ o'.diskPath h = dir ++ [name] ∧
      Relocated o o' h dir i.name name := by
  obtain ⟨p, -, hold, hnew⟩ := r.diskPath_self w a hi hk
  refine ⟨o.diskPath p, hold, hnew, by rw [w.diskNames_of_get? a hi, hold], fun {x} hb => ?_,
    fun {x} hx hb => ?_⟩
  · obtain ⟨k, hx⟩ := hb.live hi
    obtain ⟨rest, hrest, hrest'⟩ := r.diskPath_below w a hb
    refine ⟨rest, ?_, ?_⟩
    · rw [w.diskNames_of_get? a hx, hrest, hold, List.append_assoc, List.singleton_append]
    · rw [r.diskNames_eq a hx, hrest', hnew, List.append_assoc, List.singleton_append]
  · obtain ⟨k, hk⟩ := w.live_of_reachable hx
    rw [r.diskNames_eq a hk, w.diskNames_of_get? a hk, r.diskPath_beside w a hk hb]

/-- Where an item below a renamed one and an item beside it come to lie in one directory under one
name, the former is the renamed one. -/
theorem path_of_clash (hi : o.get? h = some i) (hk : i.kind.namesPath = true)
    (hx : o.Below h x) (hy : ¬ o.Below h y) (hdx : o.Below d x) (hdy : o.Below d y)
    (hlast : o'.diskPath x = o'.diskPath d ++ [last]) : o'.diskPath x = o'.diskPath h := by
  obtain ⟨p, hp, -, hnew⟩ := r.diskPath_self w a hi hk
  obtain ⟨m, hm, hmem⟩ := w.parent_of a hi hp
  obtain ⟨rest, -, hrest⟩ := r.diskPath_below w a hx
  -- the directory is that of an item above the one that was renamed
  have hdp : o.Below d p := by
    rcases hdx.linear hx with hd | hd
    · cases hd with
      | self => exact absurd hdy hy
      | step hi' hp' hd =>
          rw [hi] at hi'
          rw [← Option.some.inj hi', hp] at hp'
          rwa [Option.some.inj hp']
    · exact absurd (hd.trans hdy) hy
  have hle := (r.tree.diskPath_prefix (a.congr r.links) (r.below_iff.mpr hdp)).length_le
  rw [r.diskPath_beside w a hm (w.not_below_parent hm hmem)] at hle
  have hlen := congrArg List.length (hrest.symm.trans hlast)
  rw [hnew, List.length_append, List.length_append, List.length_append] at hlen
  simp only [List.length_singleton] at hlen
  rw [hrest, List.eq_nil_of_length_eq_zero (by omega : rest.length = 0), List.append_nil]

/-! ### The image of the root -/

variable (c : o.Complete)

include c

omit a in
theorem exists_data (hx : o.Reachable x) (hfile : o.isFile x = true) :
    ∃ b, o.data x = some b ∧ o'.data x = some b := by
  obtain ⟨k, hk⟩ := w.live_of_reachable hx
  obtain ⟨b, hb⟩ := c.data hx hfile
  exact ⟨b, hb, r.data hk ((isFile_iff hk).mp hfile) hb⟩

theorem record_eq (hx : x ∈ o.onDisk Outline.root) :
    o'.record x = (o'.diskPath x, (o.record x).2) := by
  unfold record
  rw [r.isFile]
  cases hfile : o.isFile x with
  | false => rfl
  | true =>
      obtain ⟨b, hb, hb'⟩ := r.exists_data w c ((w.mem_onDisk_root_iff a).mp hx).1 hfile
      rw [hb, hb']

theorem map_record (hi : o.get? h = some i) (hk : i.kind.namesPath = true) :
    (o'.onDisk Outline.root).map o'.record =
      ((o.onDisk Outline.root).map o.record).map (Tree.moved (o.diskPath h) (o'.diskPath h)) := by
  rw [r.onDisk, List.map_map]
  refine List.map_congr_left fun x hx => ?_
  rw [r.record_eq w a c hx]
  show _ = Tree.moved _ _ (o.diskPath x, (o.record x).2)
  obtain ⟨k, hx'⟩ := w.live_of_reachable ((w.mem_onDisk_root_iff a).mp hx).1
  by_cases hb : o.Below h x
  · obtain ⟨rest, hold, hnew⟩ := r.diskPath_below w a hb
    rw [hold, hnew, Tree.moved_append]
  · have hpre : ¬ o.diskPath h <+: o.diskPath x := fun hpre =>
      hb (c.below_of_prefix w a (w.mem_onDisk_root a hi hk) hx' hpre)
    rw [Tree.moved, if_neg hpre, r.diskPath_beside w a hx' hb]

theorem not_below_iff (hx : x ∈ o.onDisk Outline.root) (hy : y ∈ o.onDisk Outline.root)
    (hne : x ≠ y) (hpath : o'.diskPath x = o'.diskPath y) : ¬ o.Below h x ↔ o.Below h y := by
  obtain ⟨k, hk⟩ := w.live_of_reachable ((w.mem_onDisk_root_iff a).mp hx).1
  obtain ⟨m, hm⟩ := w.live_of_reachable ((w.mem_onDisk_root_iff a).mp hy).1
  constructor
  · intro hbx
    by_contra hby
    rw [r.diskPath_beside w a hk hbx, r.diskPath_beside w a hm hby] at hpath
    exact hne (c.paths_of_diskPath w a hx hy hpath)
  · intro hby hbx
    obtain ⟨rest, hold, hnew⟩ := r.diskPath_below w a hbx
    obtain ⟨rest', hold', hnew'⟩ := r.diskPath_below w a hby
    obtain rfl : rest = rest' := List.append_cancel_left (hnew.symm.trans (hpath.trans hnew'))
    exact hne (c.paths_of_diskPath w a hx hy (hold.trans hold'.symm))

/-- The name of an item that is not on disk plays no part in the image of the root. -/
theorem plainImage_of_not_onDisk (hi : o.isOnDisk h = false)
    (ht : o.plainImage Outline.root = .ok t) : o'.plainImage Outline.root = .ok t := by
  have a' := a.congr r.links
  have complete' : o'.Complete := by
    constructor
    · intro f hf hfile
      rw [r.isFile] at hfile
      obtain ⟨b, -, hb⟩ := r.exists_data w c ((r.reachable_iff w a).mp hf) hfile
      exact ⟨b, hb⟩
    · intro x y hx hy hdx hdy hxy
      rw [r.reachable_iff w a] at hx hy
      rw [r.isOnDisk] at hdx hdy
      rw [r.diskNames_of_not_onDisk w a hi hx, r.diskNames_of_not_onDisk w a hi hy] at hxy
      exact c.paths hx hy hdx hdy hxy
  obtain ⟨-, hdir, hlist⟩ := w.listing_root a ht
  refine complete'.plainImage_root r.tree a' hdir ?_
  rw [hlist, r.onDisk]
  refine List.map_congr_left fun x hx => ?_
  obtain ⟨k, hk⟩ := w.live_of_reachable ((w.mem_onDisk_root_iff a).mp hx).1
  rw [r.record_eq w a c hx, r.diskPath_of_not_onDisk w a hi hk]
  rfl

variable (hi : o.get? h = some i) (hk : i.kind.namesPath = true)

include hi hk

/-- When the image of the root cannot be made any more, another item has the new path. -/
theorem taken_of_error (he : o'.plainImage Outline.root = .error e) :
    e = .error (.conflict (.ofNames (o'.diskPath h))) ∧ o.Taken h (o'.diskPath h) := by
  obtain ⟨root, hroot, -⟩ := r.tree.root
  have meet : ∀ {x y d last}, y ∈ o.onDisk Outline.root → o.Below h x → ¬ o.Below h y →
      o'.Below d x → o'.Below d y → o'.diskPath x = o'.diskPath y →
      o'.diskPath x = o'.diskPath d ++ [last] →
      o'.diskPath x = o'.diskPath h ∧ o.Taken h (o'.diskPath h) := by
    intro x y d last hy hbx hby hdx hdy hpath hlast
    obtain ⟨hry, hdisk⟩ := (w.mem_onDisk_root_iff a).mp hy
    obtain ⟨m, hm⟩ := w.live_of_reachable hry
    have hself := r.path_of_clash w a hi hk hbx hby (r.below_iff.mp hdx) (r.below_iff.mp hdy) hlast
    refine ⟨hself, y, ?_, hry, hdisk, ?_⟩
    · rintro rfl
      exact hby .self
    · rw [w.diskNames_of_get? a hm, ← r.diskPath_beside w a hm hby, ← hpath, hself]
  cases r.tree.plainImage_error (a.congr r.links) hroot he with
  | missing hf hfile hnone =>
      rw [r.onDisk] at hf
      rw [r.isFile] at hfile
      obtain ⟨b, -, hb⟩ := r.exists_data w c ((w.mem_onDisk_root_iff a).mp hf).1 hfile
      rw [hb] at hnone
      cases hnone
  | @conflict x y d last hx hy hne hpath hdx hdy hlast =>
      rw [r.onDisk] at hx hy
      by_cases hbx : o.Below h x
      · have hby := (r.not_below_iff w a c hy hx hne.symm hpath.symm).mpr hbx
        obtain ⟨hself, htaken⟩ := meet hy hbx hby hdx hdy hpath hlast
        exact ⟨by rw [hself], htaken⟩
      · have hby := (r.not_below_iff w a c hx hy hne hpath).mp hbx
        obtain ⟨hself, htaken⟩ := meet hx hby hbx hdy hdx hpath.symm (hpath ▸ hlast)
        exact ⟨by rw [hpath, hself], htaken⟩

/-- When the image of the root can still be made, no other item has the new path. -/
theorem not_taken (hu : o'.plainImage Outline.root = .ok u) : ¬ o.Taken h (o'.diskPath h) := by
  have a' := a.congr r.links
  rintro ⟨y, hne, hry, hdisk, hnames⟩
  obtain ⟨m, hm⟩ := w.live_of_reachable hry
  have hy := (w.mem_onDisk_root_iff a).mpr ⟨hry, hdisk⟩
  have hh := w.mem_onDisk_root a hi hk
  rw [w.diskNames_of_get? a hm, Except.ok.injEq] at hnames
  by_cases hb : o.Below h y
  · -- the path of an item below is as long as that of the item itself only for that one
    obtain ⟨rest, hrest, -⟩ := r.diskPath_below w a hb
    have hlen := congrArg List.length (hrest.symm.trans hnames)
    rw [r.length_diskPath_self w a hi hk, List.length_append] at hlen
    rw [List.eq_nil_of_length_eq_zero (by omega : rest.length = 0), List.append_nil] at hrest
    exact hne (c.paths_of_diskPath w a hy hh hrest)
  · have hpath := (r.diskPath_beside w a hm hb).trans hnames
    rw [← r.onDisk] at hy hh
    exact hne ((r.tree.complete_of_plainImage a' hu).paths_of_diskPath r.tree a' hy hh hpath)

/-- Then it has the entry of the item under its new name. -/
theorem plainImage_eq {dir : List String} (hold : o.diskPath h = dir ++ [i.name])
    (hnew : o'.diskPath h = dir ++ [name]) (ht : o.plainImage Outline.root = .ok t)
    (hu : o'.plainImage Outline.root = .ok u) : u = t.renameAt i.name name dir := by
  have a' := a.congr r.links
  obtain ⟨-, hdir, hlist⟩ := w.listing_root a ht
  have himage := (r.tree.complete_of_plainImage a' hu).plainImage_root (t := t.renameAt i.name name dir)
    r.tree a' (by rw [Tree.isDir_renameAt, hdir]) ?_
  · exact Except.ok.inj (hu.symm.trans himage)
  · rw [Tree.listing_renameAt, List.nil_append, ← hold, ← hnew, hlist, r.map_record w a c hi hk]

end

end Renamed

end Outline

open Outline

/-! ### Sequences of renamings -/

/-- Whether a step renames an item or does no more than ask for images. -/
def EditStep.renames : EditStep → Bool
  | .edit (.rename ..) | .image .. | .refresh .. => true
  | _ => false

/-- The workspaces that renaming items leads to, one after another and with images asked for in
between, but no save. -/
inductive Renamings (W : Workspace) : Workspace → Prop
  | start : Renamings W W
  | step {V V' : Workspace} {s : EditStep} : Renamings W V → s.renames = true → s.Takes V V' →
      Renamings W V'

namespace Outline

/-- A file is still there, and its data if it had any. -/
structure KeepsFile (o o' : Outline) (f : Handle) : Prop where
  reachable : o'.Reachable f
  file : o'.isFile f = true
  data : ∀ c, o.data f = some c → o'.data f = some c

variable {o o' o'' : Outline} {f h : Handle} {name : String} {W W' : Workspace} {s : EditStep}

theorem KeepsFile.trans (k : KeepsFile o o' f) (k' : KeepsFile o' o'' f) : KeepsFile o o'' f :=
  ⟨k'.reachable, k'.file, fun c hc => k'.data c (k.data c hc)⟩

theorem SameTree.keepsFile (st : SameTree o o') (w : o.WellFormed) (a : o.Attached)
    (hf : o.Reachable f) (hfile : o.isFile f = true) : KeepsFile o o' f := by
  obtain ⟨i, hi⟩ := w.live_of_reachable hf
  obtain ⟨j, hj, -⟩ := st.agree.get?_eq_some hi
  have hkind := isFile_congr ((st.agree.comp Item.kind fun _ => rfl).get f)
  exact ⟨(st.wellFormed w).reachable (st.attached a) hj, hkind.trans hfile,
    fun c hc => (st.data w a hi).trans hc⟩

theorem Renamed.keepsFile (r : Renamed h name o o') (w : o.WellFormed) (a : o.Attached)
    (hf : o.Reachable f) (hfile : o.isFile f = true) : KeepsFile o o' f := by
  obtain ⟨i, hi⟩ := w.live_of_reachable hf
  exact ⟨(r.reachable_iff w a).mpr hf, (r.isFile f).trans hfile,
    fun c hc => r.data hi ((isFile_iff hi).mp hfile) hc⟩

theorem Sound.renamed_of_takes (so : W.outline.Sound)
    (hs : (EditStep.edit (.rename h name)).Takes W W') : Renamed h name W.outline W'.outline := by
  cases hs with
  | edit _ hx hr =>
      obtain ⟨_, hrun⟩ := exec_of_accepted (Workspace.exec_of_edit hx) hr
      exact so.renamed hrun

theorem Sound.keepsFile_of_takes (so : W.outline.Sound) (hs : s.Takes W W')
    (hr : s.renames = true) (hf : W.outline.Reachable f) (hfile : W.outline.isFile f = true) :
    KeepsFile W.outline W'.outline f := by
  have w := so.tree
  have a := so.attached
  cases s with
  | edit c =>
      cases c with
      | rename x n => exact (so.renamed_of_takes hs).keepsFile w a hf hfile
      | _ => cases hr
  | image held x =>
      cases hs with
      | image hreach hx =>
          obtain ⟨i, hi⟩ := w.live_of_reachable hreach
          exact (Workspace.exec_image so hi hx).2.cleared.tree.keepsFile w a hf hfile
  | refresh held x =>
      cases hs with
      | refresh hreach hx =>
          obtain ⟨i, hi⟩ := w.live_of_reachable hreach
          exact (Workspace.exec_refresh so hi hx).kept.cleared.tree.keepsFile w a hf hfile
  | save held => cases hr

end Outline

variable {W V : Workspace} {f : Handle}

theorem Renamings.sound (rs : Renamings W V) (so : W.outline.Sound) : V.outline.Sound := by
  induction rs with
  | start => exact so
  | step _ _ hs ih => exact ih.takes hs

/-- Renamings keep all files. -/
theorem Renamings.keepsFile (rs : Renamings W V) (so : W.outline.Sound)
    (hf : W.outline.Reachable f) (hfile : W.outline.isFile f = true) :
    KeepsFile W.outline V.outline f := by
  induction rs with
  | start => exact ⟨hf, hfile, fun _ hc => hc⟩
  | step rs hr hs ih =>
      exact ih.trans ((rs.sound so).keepsFile_of_takes hs hr ih.reachable ih.file)

/-- Renamings that are played are some. -/
theorem Renamings.play {steps : List EditStep} (so : W.outline.Sound)
    (hr : ∀ s ∈ steps, s.renames = true) (hp : W.play steps = some V) : Renamings W V :=
  Workspace.play_induction (fun rs => rs.sound so) (fun hmem rs hs => rs.step (hr _ hmem) hs)
    .start hp

/-! ### On editing runs -/

/-- Renaming items on an editing run changes paths and no data.  If the image of the root can be
made, a folder or file that gets another name has its entry under that name in the same place,
unless another folder or file has the path already; an item that is not on disk changes nothing. -/
theorem EditRun.renaming_keeps_data (run : EditRun W) :
    (∀ W', Renamings W W' → ∀ f, W.outline.Reachable f → W.outline.isFile f = true →
      KeepsFile W.outline W'.outline f) ∧
    ∀ x n W', (EditStep.edit (.rename x n)).Takes W W' → ∀ held held',
      (W.outline.isOnDisk x = true → ∃ dir old,
        Relocated W.outline W'.outline x dir old n ∧
        ∀ t, (exec (Workspace.image held Outline.root) W).1 = .ok t →
          (W.outline.Taken x (dir ++ [n]) → (exec (Workspace.image held' Outline.root) W').1 =
            .error (.error (.conflict (.ofNames (dir ++ [n]))))) ∧
          (¬ W.outline.Taken x (dir ++ [n]) → ∃ u,
            (exec (Workspace.image held' Outline.root) W').1 = .ok u ∧
              u.plain = t.plain.renameAt old n dir)) ∧
      (W.outline.isOnDisk x = false →
        (∀ y, W.outline.Reachable y → W'.outline.diskNames y = W.outline.diskNames y) ∧
        ∀ t, (exec (Workspace.image held Outline.root) W).1 = .ok t → ∃ u,
          (exec (Workspace.image held' Outline.root) W').1 = .ok u ∧ u.plain = t.plain) := by
  have so := run.sound
  have w := so.tree
  have a := so.attached
  refine ⟨fun W' rs f hf hfile => rs.keepsFile so hf hfile, fun x n W' hs held held' => ?_⟩
  have r := so.renamed_of_takes hs
  have so' := so.takes hs
  obtain ⟨i, hi⟩ : ∃ i, W.outline.get? x = some i := by
    cases hs with
    | edit hlive _ _ => exact w.live_of_reachable (hlive x List.mem_cons_self)
  refine ⟨fun hdisk => ?_, fun hdisk => ⟨fun y hy => ?_, fun t ht => ?_⟩⟩
  · have hk : i.kind.namesPath = true := (isOnDisk_eq hi).symm.trans hdisk
    obtain ⟨dir, hold, hnew, relocated⟩ := r.relocated w a hi hk
    refine ⟨dir, i.name, relocated, fun t ht => ?_⟩
    have himage := (so.image_root_iff held).mp ⟨t, ht, rfl⟩
    have c := w.complete_of_plainImage a himage
    rw [← hnew]
    cases hplain : W'.outline.plainImage Outline.root with
    | error e =>
        obtain ⟨rfl, htaken⟩ := r.taken_of_error w a c hi hk hplain
        exact ⟨fun _ => so'.image_root_of_error hplain held', fun hnot => absurd htaken hnot⟩
    | ok u =>
        rw [r.plainImage_eq w a c hi hk hold hnew himage hplain] at hplain
        exact ⟨fun htaken => absurd htaken (r.not_taken w a c hi hk hplain),
          fun _ => (so'.image_root_iff held').mpr hplain⟩
  · exact r.diskNames_of_not_onDisk w a hdisk hy
  · have himage := (so.image_root_iff held).mp ⟨t, ht, rfl⟩
    have c := w.complete_of_plainImage a himage
    exact (so'.image_root_iff held').mpr (r.plainImage_of_not_onDisk w a c hdisk himage)

/-- On a document with two files and a folder: the files can change their names by way of a third
one, the folder can be renamed in place, and a file in a file group can get the name of a file beside
the group, but then the image of the root cannot be made. -/
theorem EditRun.renaming_keeps_data_of_swapped_files :
    ∃ W V W₁ W₂ : Workspace, EditRun W ∧ Renamings W V ∧
      V.outline.diskNames ⟨2, 0⟩ = .ok ["b"] ∧ V.outline.data ⟨2, 0⟩ = some [0x31] ∧
      V.outline.diskNames ⟨3, 0⟩ = .ok ["a"] ∧ V.outline.data ⟨3, 0⟩ = some [0x32] ∧
      (EditStep.edit (.rename ⟨4, 0⟩ "e")).Takes W W₁ ∧
      (∃ u, (exec (Workspace.image [] Outline.root) W₁).1 = .ok u ∧
        u.plain = .dir () [("a", .file () [0x31]), ("b", .file () [0x32]),
          ("e", .dir () [("c", .file () [0x33])]), ("g", .file () [0x34])]) ∧
      (EditStep.edit (.rename ⟨7, 0⟩ "a")).Takes W W₂ ∧
      (exec (Workspace.image [] Outline.root) W₂).1 =
        .error (.error (.conflict (.ofNames ["a"]))) := by
  obtain ⟨W, run, hW⟩ := EditRun.exists_of_play
    (some (.dir 0 [("a", .file 1 [0x31]), ("b", .file 2 [0x32]),
      ("d", .dir 3 [("c", .file 4 [0x33])])])) 5
    [.edit (.add Outline.root .group "Package"), .edit (.add ⟨1, 0⟩ .file "a"),
      .edit (.add ⟨1, 0⟩ .file "b"), .edit (.add ⟨1, 0⟩ .folder "d"),
      .edit (.add ⟨4, 0⟩ .file "c"), .edit (.add ⟨1, 0⟩ .fileGroup "more"),
      .edit (.add ⟨6, 0⟩ .file "g"), .edit (.setContents ⟨7, 0⟩ [0x34])]
    (fun W =>
      [⟨2, 0⟩, ⟨3, 0⟩].all (fun f => W.outline.contains f && W.outline.isFile f) &&
      W.outline.data ⟨2, 0⟩ == some [0x31] && W.outline.data ⟨3, 0⟩ == some [0x32] &&
      (W.outline.diskNames ⟨2, 0⟩).toOption == some ["a"] &&
      (W.outline.diskNames ⟨4, 0⟩).toOption == some ["d"] &&
      (W.outline.diskNames ⟨7, 0⟩).toOption == some ["g"] &&
      [⟨2, 0⟩, ⟨4, 0⟩, ⟨7, 0⟩].all W.outline.isOnDisk &&
      (W.outline.family Outline.root).all
        (fun y => (W.outline.diskNames y).toOption != some ["e"]) &&
      (exec (Workspace.image [] Outline.root) W).1.toOption.any
        (·.same (Tree.dir () [("a", .file () [0x31]), ("b", .file () [0x32]),
          ("d", .dir () [("c", .file () [0x33])]), ("g", .file () [0x34])])) &&
      (W.play [.edit (.rename ⟨2, 0⟩ "t"), .edit (.rename ⟨3, 0⟩ "a"),
        .edit (.rename ⟨2, 0⟩ "b")]).any (fun V =>
          (V.outline.diskNames ⟨2, 0⟩).toOption == some ["b"] &&
          (V.outline.diskNames ⟨3, 0⟩).toOption == some ["a"]) &&
      ((EditStep.edit (.rename ⟨4, 0⟩ "e")).next? W).isSome &&
      ((EditStep.edit (.rename ⟨7, 0⟩ "a")).next? W).isSome)
    (by decide +kernel)
  simp only [Bool.and_eq_true, beq_iff_eq, List.all_cons, List.all_nil, Bool.and_true] at hW
  obtain ⟨⟨⟨⟨⟨⟨⟨⟨⟨⟨⟨⟨⟨hlive₂, hfile₂⟩, hlive₃, hfile₃⟩, hdata₂⟩, hdata₃⟩, hname₂⟩, hname₄⟩, hname₇⟩,
    hdisk₂, hdisk₄, hdisk₇⟩, hfree⟩, himage⟩, hswap⟩, hfolder⟩, htwin⟩ := hW
  obtain ⟨V, hV, hnames⟩ := (Option.any_eq_true ..).mp hswap
  simp only [Bool.and_eq_true, beq_iff_eq] at hnames
  obtain ⟨W₁, hW₁⟩ := Option.isSome_iff_exists.mp hfolder
  obtain ⟨W₂, hW₂⟩ := Option.isSome_iff_exists.mp htwin
  obtain ⟨t, ht, hsame⟩ := (Option.any_eq_true ..).mp himage
  have ht := toOption_eq_some.mp ht
  have so := run.sound
  have renamings : Renamings W V := .play so (by decide) hV
  have takes₁ := so.takes_of_next? hW₁
  have takes₂ := so.takes_of_next? hW₂
  obtain ⟨keeps, step⟩ := run.renaming_keeps_data
  refine ⟨W, V, W₁, W₂, run, renamings, toOption_eq_some.mp hnames.1, ?_,
    toOption_eq_some.mp hnames.2, ?_, takes₁, ?_, takes₂, ?_⟩
  · exact (keeps V renamings ⟨2, 0⟩ (so.reachable hlive₂) hfile₂).data _ hdata₂
  · exact (keeps V renamings ⟨3, 0⟩ (so.reachable hlive₃) hfile₃).data _ hdata₃
  · obtain ⟨dir, old, relocated, image⟩ := (step ⟨4, 0⟩ "e" W₁ takes₁ [] []).1 hdisk₄
    rw [relocated.self] at hname₄
    obtain ⟨rfl, hold⟩ := List.append_inj' (Option.some.inj hname₄ : dir ++ [old] = [] ++ ["d"]) rfl
    obtain rfl := List.singleton_inj.mp hold
    have free : ¬ W.outline.Taken ⟨4, 0⟩ ["e"] := by
      rintro ⟨y, -, hy, -, hnames⟩
      have hne := List.all_eq_true.mp hfree y ((so.tree.mem_family_root so.attached).mpr hy)
      rw [hnames] at hne
      exact absurd hne (by decide)
    obtain ⟨u, hu, hplain⟩ := (image t ht).2 free
    refine ⟨u, hu, ?_⟩
    rw [hplain, (Tree.same_iff _ _).mp hsame]
    rfl
  · obtain ⟨dir, old, relocated, image⟩ := (step ⟨7, 0⟩ "a" W₂ takes₂ [] []).1 hdisk₇
    rw [relocated.self] at hname₇
    obtain ⟨rfl, -⟩ := List.append_inj' (Option.some.inj hname₇ : dir ++ [old] = [] ++ ["g"]) rfl
    exact (image t ht).1 ⟨⟨2, 0⟩, by decide, so.reachable hlive₂, hdisk₂,
      toOption_eq_some.mp hname₂⟩

end PackageOutline
