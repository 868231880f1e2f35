import PackageOutline.Proofs.Outline.Soundness

/-! # Renaming items

The paths of the files at and below a folder or file change with its name, so before it is renamed
they get contents of their own.  `Outline.Filled` is what that comes to: the files of a family hold
their data as contents, and nothing else is different. -/

namespace PackageOutline

namespace Outline

variable {o o' o'' : Outline} {h x : Handle} {i k : Item} {l l' : List Handle}

/-- An item with its data as contents, if it is a file of the list. -/
def fill (o : Outline) (l : List Handle) (x : Handle) (i : Item) : Item :=
  if x ∈ l ∧ i.kind = .file then { i with contents := o.data x } else i

/-- The files of a list hold their data as contents. -/
structure Filled (l : List Handle) (o o' : Outline) : Prop where
  size : o'.slots.size = o.slots.size
  free : o'.free = o.free
  document : o'.document = o.document
  get : ∀ x, o'.get? x = (o.get? x).map (o.fill l x)

@[simp] theorem fill_nil (o : Outline) (x : Handle) (i : Item) : o.fill [] x i = i := by
  simp [fill]

theorem frame_fill (o : Outline) (l : List Handle) (x : Handle) (i : Item) :
    (o.fill l x i).frame = i.frame := by
  unfold fill
  split <;> rfl

theorem dirty_fill (o : Outline) (l : List Handle) (x : Handle) (i : Item) :
    (o.fill l x i).dirty = i.dirty ∧ (o.fill l x i).cache = i.cache := by
  unfold fill
  split <;> exact ⟨rfl, rfl⟩

namespace Filled

theorem refl (o : Outline) : Filled [] o o := by
  refine ⟨rfl, rfl, rfl, fun x => ?_⟩
  have hid : o.fill [] x = id := funext fun i => o.fill_nil x i
  rw [hid, Option.map_id, id]

theorem frame (f : Filled l o o') : AgreeOn Item.frame o o' := by
  refine ⟨f.size, f.free, fun x => ?_⟩
  rw [f.get, Option.map_map]
  congr 1
  exact funext fun i => o.frame_fill l x i

theorem data (f : Filled l o o') (w : o.WellFormed) (a : o.Attached) (hi : o.get? x = some i) :
    o'.data x = o.data x := by
  obtain ⟨lx, hlx⟩ := w.exists_line a hi
  have hpath := w.diskPath_of_stem (w.congr f.frame) hlx fun y _ => f.frame.stem.get y
  have hget := f.get x
  rw [hi, Option.map_some] at hget
  unfold fill at hget
  split at hget
  · unfold Outline.data at hget ⊢
    rw [hget, f.document, hpath]
    rw [hi] at hget ⊢
    simp only [Option.bind_some] at hget ⊢
    cases hc : i.contents with
    | some c => rfl
    | none =>
        simp only
        split
        · rename_i c hc'
          exact hc'.symm
        · rfl
  · unfold Outline.data
    rw [hget, hi, f.document, hpath]

theorem cons (f : Filled [x] o o') (f' : Filled l o' o'') (w : o.WellFormed) (a : o.Attached) :
    Filled (x :: l) o o'' := by
  refine ⟨f'.size.trans f.size, f'.free.trans f.free, f'.document.trans f.document, fun y => ?_⟩
  rw [f'.get, f.get]
  cases hi : o.get? y with
  | none => rfl
  | some i =>
      have hd := f.data w a hi
      simp only [Option.map_some, Option.some.injEq]
      unfold fill
      rw [hd]
      by_cases hk : i.kind = .file <;> by_cases hx : y = x <;> by_cases hl : y ∈ l <;>
        simp [hk, hx, hl]

end Filled

/-! ### Keeping contents -/

variable {document : SharedTree}

theorem WellFormed.exec_keepFile (w : o.WellFormed) (hl : o.Line x l) (hi : o.get? x = some i)
    (hdoc : o.document = some document) :
    ∃ o', exec (Edit.keepFile document x) o = (.ok (), o') ∧ Filled [x] o o' := by
  have hread : exec (Edit.read (·.item x)) o = (.ok i, o) :=
    Edit.exec_read_eq_ok.mpr ⟨item_of_get? hi, rfl⟩
  have hnames : exec (Edit.read (·.diskNames x)) o = (.ok (o.diskPath x), o) :=
    Edit.exec_read_eq_ok.mpr ⟨w.diskNames_eq_diskPath hl, rfl⟩
  -- when the file holds its data already, or is no file at all, nothing is done
  have idle : (i.kind = .file → i.contents = o.data x) → Filled [x] o o := by
    intro hsame
    refine ⟨rfl, rfl, rfl, fun y => ?_⟩
    cases hk : o.get? y with
    | none => rfl
    | some k =>
        rw [Option.map_some, fill]
        split
        · rename_i hy
          obtain rfl := List.mem_singleton.mp hy.1
          rw [hi] at hk
          obtain rfl := Option.some.inj hk
          rw [← hsame hy.2]
        · rfl
  unfold Edit.keepFile
  rw [exec_bind_of_ok hread]
  split
  · rename_i hfile
    obtain ⟨hkind, hnone⟩ : i.kind = .file ∧ i.contents = none := by
      simpa [Kind.holdsData] using hfile
    have hdata : o.data x = (document.find? (o.diskPath x)).bind Tree.contents? := by
      unfold data
      rw [hi, Option.bind_some, hnone, hdoc, Option.bind_some]
    rw [exec_bind_of_ok hnames, ← hdata]
    cases hc : o.data x with
    | none => exact ⟨o, rfl, idle fun _ => by rw [hnone, hc]⟩
    | some c =>
        refine ⟨o.set x { i with contents := some c },
          Edit.exec_change_eq_ok.mpr (update_of_get? hi _), size_set o x _, rfl, rfl, fun y => ?_⟩
        rw [get?_set hi]
        by_cases hy : y = x
        · rw [if_pos hy, hy, hi, Option.map_some, fill,
            if_pos ⟨List.mem_singleton_self x, hkind⟩, hc]
        · rw [if_neg hy]
          cases o.get? y with
          | none => rfl
          | some k => simp [fill, hy]
  · rename_i hfile
    refine ⟨o, rfl, idle fun hkind => ?_⟩
    cases hc : i.contents with
    | none => exact absurd (by simp [Kind.holdsData, hkind, hc]) hfile
    | some c =>
        unfold data
        rw [hi, Option.bind_some, hc]

theorem WellFormed.exec_keepFiles (w : o.WellFormed) (a : o.Attached)
    (hdoc : o.document = some document) {walked : List (Handle × Nat)}
    (live : ∀ q ∈ walked, ∃ i, o.get? q.1 = some i) :
    ∃ o', exec (walked.forM fun q => Edit.keepFile document q.1) o = (.ok (), o') ∧
      Filled (walked.map Prod.fst) o o' := by
  induction walked generalizing o with
  | nil => exact ⟨o, rfl, .refl o⟩
  | cons q walked ih =>
      obtain ⟨i, hi⟩ := live q List.mem_cons_self
      obtain ⟨l, hl⟩ := w.exists_line a hi
      obtain ⟨o₁, hrun, f⟩ := w.exec_keepFile hl hi hdoc
      have live₁ : ∀ q ∈ walked, ∃ i, o₁.get? q.1 = some i := by
        intro q hq
        obtain ⟨k, hk⟩ := live q (List.mem_cons_of_mem _ hq)
        obtain ⟨k', hk', -⟩ := f.frame.get?_eq_some hk
        exact ⟨k', hk'⟩
      obtain ⟨o', hrun', f'⟩ := ih (w.congr f.frame) (a.congr f.frame.links)
        (f.document.trans hdoc) live₁
      refine ⟨o', ?_, f.cons f' w a⟩
      show exec (Edit.keepFile document q.1 >>= fun _ => walked.forM fun q =>
        Edit.keepFile document q.1) o = _
      rw [exec_bind_of_ok hrun, hrun']

/-- The files at and below an item get their data as contents. -/
theorem WellFormed.exec_keepContents (w : o.WellFormed) (a : o.Attached)
    (hi : o.get? h = some i) :
    ∃ o', exec (Edit.keepContents h) o = (.ok (), o') ∧ Filled (o.family h) o o' := by
  unfold Edit.keepContents
  rw [exec_bind_of_ok (exec_get o)]
  cases hdoc : o.document with
  | none =>
      refine ⟨o, rfl, rfl, rfl, rfl, fun x => ?_⟩
      cases hk : o.get? x with
      | none => rfl
      | some k =>
          rw [Option.map_some, fill]
          split
          · unfold data
            rw [hk, hdoc, Option.bind_some]
            cases hc : k.contents <;> simp [← hc]
          · rfl
  | some document =>
      have hwalk : exec (Edit.read (·.walk h)) o = (.ok (o.preorder o.slots.size 0 h), o) :=
        Edit.exec_read_eq_ok.mpr ⟨w.walk_eq hi, rfl⟩
      simp only
      rw [exec_bind_of_ok hwalk]
      refine w.exec_keepFiles a hdoc fun q hq => ?_
      exact w.live_of_mem_family hi (List.mem_map_of_mem hq)

/-! ### Renaming -/

theorem WellFormed.rename {name : String} (w : o.WellFormed) (hi : o.get? h = some i)
    (hname : o.checkName h i name = .ok ()) (ag : AgreeOn Item.frame o o')
    (hk : o'.get? h = some k) : (o'.set h { k with name }).WellFormed := by
  obtain ⟨k₀, hk₀, hkf⟩ := ag.get?_eq_some hi
  rw [hk] at hk₀
  obtain rfl := Option.some.inj hk₀
  obtain ⟨hkk, -, hkp, -⟩ := Item.frame_eq_iff.mp hkf
  obtain ⟨hgroup, hparent⟩ := checkName_eq_ok hname
  refine (w.congr ag).setName hk (fun hr => ?_) (fun hg => hgroup (hkk ▸ hg)) ?_
  · cases hp : i.parent with
    | none => exact absurd (w.orphan hi hp) hr
    | some p => exact (hparent p hp).1
  · intro p j c m hp hj hc hch hm
    obtain ⟨j₀, hj₀, hdiff⟩ := checkSiblings_eq_ok (hparent p (hkp ▸ hp)).2
    obtain ⟨j', hj', hjc⟩ := ag.children hj
    rw [hj₀] at hj'
    obtain rfl := Option.some.inj hj'
    obtain ⟨m₀, hm₀, hmf⟩ := ag.symm.get?_eq_some hm
    rw [← (Item.frame_eq_iff.mp hmf).2.1]
    exact hdiff (hjc ▸ hc) (fun e => hch (Option.some.inj e)) hm₀

/-- What renaming an item comes to. -/
theorem Sound.rename_eq_ok {name : String} (s : o.Sound)
    (hm : exec (Edit.rename h name) o = (.ok (), o')) :
    ∃ i k l o₁, o.get? h = some i ∧ o.checkName h i name = .ok () ∧
      (i.kind.namesPath = true → l = o.family h) ∧ Filled l o o₁ ∧ o₁.get? h = some k ∧
      exec (Edit.markDirty h) (o₁.set h { k with name }) = (.ok (), o') := by
  obtain ⟨i, o₁, k, hi, hname, hkeep, hk, hmark⟩ := Edit.exec_rename_eq_ok hm
  split at hkeep
  · obtain ⟨o₂, hkeep', f⟩ := s.tree.exec_keepContents s.attached hi
    obtain rfl := (Prod.mk.inj (hkeep.symm.trans hkeep')).2
    exact ⟨i, k, _, o₁, hi, hname, fun _ => rfl, f, hk, hmark⟩
  · subst hkeep
    exact ⟨i, k, [], o₁, hi, hname, fun hpath => absurd hpath ‹_›, .refl o₁, hk, hmark⟩

theorem WellFormed.data_rename {name : String} {n : Item} {c : Bytes} (w : o.WellFormed)
    (a : o.Attached) (hi : o.get? h = some i) (hname : o.checkName h i name = .ok ())
    (hfilled : i.kind.namesPath = true → l = o.family h) (f : Filled l o o')
    (hk : o'.get? h = some k) (hn : o.get? x = some n) (hfile : n.kind = .file)
    (hc : o.data x = some c) : (o'.set h { k with name }).data x = some c := by
  have w' : (o'.set h { k with name }).WellFormed := w.rename hi hname f.frame hk
  have links : AgreeOn Item.links o (o'.set h { k with name }) :=
    f.frame.links.trans (.set hk rfl)
  have hcontents : ((o'.set h { k with name }).get? x).bind Item.contents =
      (o.fill l x n).contents := by
    rw [get?_set hk]
    split
    · rename_i hx
      subst hx
      rw [f.get, hn] at hk
      rw [← Option.some.inj hk]
      rfl
    · rw [f.get, hn]
      rfl
  by_cases hx : x ∈ l
  · unfold Outline.data
    rw [hcontents, fill, if_pos ⟨hx, hfile⟩, hc]
  · -- a file at or below `h` that was not filled has a path that the name of `h` is no part of
    obtain ⟨lx, hlx⟩ := w.exists_line a hn
    have hparts : ∀ y ∈ lx, (o'.set h { k with name }).partAt y = o.partAt y := by
      intro y hy
      by_cases hyh : y = h
      · have hpath : ¬ i.kind.namesPath = true := by
          intro hpath
          rw [hfilled hpath, w.mem_family_iff a hi, ← hyh] at hx
          exact hx (hlx.mem_iff.mp hy)
        obtain ⟨k₀, hk₀, hkf⟩ := f.frame.get?_eq_some hi
        rw [hk] at hk₀
        obtain rfl := Option.some.inj hk₀
        unfold partAt
        rw [hyh, get?_set_self hk, hi, Option.elim_some, Option.elim_some]
        unfold Item.pathPart
        rw [if_neg hpath, if_neg (by simpa [(Item.frame_eq_iff.mp hkf).1] using hpath)]
      · refine partAt_congr ?_
        rw [get?_set_of_ne hk _ hyh, f.frame.stem.get y]
    have hpath := w.diskPath_congr w' hlx (links.line_of_links hlx) hparts
    unfold Outline.data at hc ⊢
    rw [hcontents, document_set, f.document, hpath, fill, if_neg (fun hboth => hx hboth.1)]
    rwa [hn, Option.bind_some] at hc

theorem Sound.rename {name : String} (s : o.Sound)
    (hm : exec (Edit.rename h name) o = (.ok (), o')) : o'.Sound := by
  obtain ⟨i, k, filled, o₁, hi, hname, hfilled, f, hk, hmark⟩ := s.rename_eq_ok hm
  have w := s.tree
  have w₂ : (o₁.set h { k with name }).WellFormed := w.rename hi hname f.frame hk
  have links : AgreeOn Item.links o (o₁.set h { k with name }) :=
    f.frame.links.trans (.set hk rfl)
  have a₂ : (o₁.set h { k with name }).Attached := s.attached.congr links
  have marks : AgreeOn (fun i : Item => (i.parent, i.dirty)) o (o₁.set h { k with name }) := by
    refine AgreeOn.trans ⟨f.size, f.free, fun x => ?_⟩ (.set hk rfl)
    rw [f.get]
    cases hm : o.get? x with
    | none => rfl
    | some m =>
        obtain ⟨-, -, hp, -⟩ := Item.frame_eq_iff.mp (o.frame_fill filled x m)
        simp only [Option.map_some, hp, (o.dirty_fill filled x m).1]
  obtain ⟨l, hl⟩ := w.exists_line s.attached hi
  have hl₂ : (o₁.set h { k with name }).Line h l := links.line_of_links hl
  refine s.marked w₂ a₂ (s.closed.congr marks) hl₂ (w₂.markDirty_eq_ok hl₂ hmark)
    fun {y m} hm hy => ?_
  have off : ∀ {z}, o.Below y z → z ≠ h := by
    rintro z hz rfl
    exact hy (hl.mem_iff.mpr hz)
  rw [get?_set_of_ne hk _ (off .self), f.get] at hm
  obtain ⟨m₀, hm₀, rfl⟩ := Option.map_eq_some_iff.mp hm
  refine ⟨m₀, hm₀, (o.dirty_fill filled y m₀).1.symm, (o.dirty_fill filled y m₀).2.symm,
    fun z hz => ?_⟩
  obtain ⟨n, hn⟩ := hz.live hm₀
  have hn₂ : (o₁.set h { k with name }).get? z = some (o.fill filled z n) := by
    rw [get?_set_of_ne hk _ (off hz), f.get, hn, Option.map_some]
  obtain ⟨hnk, hnn, -, hnc⟩ := Item.frame_eq_iff.mp (o.frame_fill filled z n)
  exact ⟨n, _, hn, hn₂, hnk, hnn, hnc, fun hfile c hc =>
    w.data_rename s.attached hi hname hfilled f hk hn hfile hc⟩

end Outline

end PackageOutline
