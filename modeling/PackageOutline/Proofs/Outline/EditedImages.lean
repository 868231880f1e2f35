import PackageOutline.Proofs.Outline.Reordering

/-! # Images after edits

On an editing run on which the image of the root can be made, edits act on it as changes of the tree
at paths (`EditRun.image_of_edited`): supplying contents writes a file, a removal leaves out
entries, and moving or reordering children changes the order in one directory.  None of these edits
keeps the image from being made. -/

namespace PackageOutline

namespace Outline

variable {o o₁ o' : Outline} {h p : Handle} {i j : Item} {l order : List Handle}

theorem WellFormed.exec_markDirty_image (w : o.WellFormed) (a : o.Attached) (hl : o.Line h l) :
    ∃ o', exec (Edit.markDirty h) o = (.ok (), o') ∧
      o'.plainImage Outline.root = o.plainImage Outline.root := by
  obtain ⟨o', hrun, m⟩ := w.exec_markDirty hl
  obtain ⟨r, hr, -⟩ := w.root
  exact ⟨o', hrun, m.tree.plainImage w a hr⟩

theorem exec_move {start stop : Nat} {c : Handle} (hj : o.get? p = some j)
    (hc : j.children[start]? = some c) (hs : stop < j.children.length) :
    exec (Edit.move p start stop) o = exec (Edit.markDirty p) (o.set p
      { j with children := (j.children.eraseIdx start).insertIdx stop c }) := by
  have hmove : o.moveChild p start stop = .ok (o.set p
      { j with children := (j.children.eraseIdx start).insertIdx stop c }) := by
    unfold moveChild
    simp only [item_of_get? hj, hc, hs, bind, Except.bind, ↓reduceIte]
    rfl
  exact exec_bind_of_ok (Edit.exec_change_eq_ok.mpr hmove)

theorem exec_reorder (hj : o.get? p = some j) (horder : isReorder order j.children = true) :
    exec (Edit.reorder p order) o =
      exec (Edit.markDirty p) (o.set p { j with children := order }) := by
  have harrange : o.arrange p order = .ok (o.set p { j with children := order }) := by
    unfold arrange
    simp only [item_of_get? hj, horder, bind, Except.bind, ↓reduceIte]
    rfl
  exact exec_bind_of_ok (Edit.exec_change_eq_ok.mpr harrange)

end Outline

open Outline

/-- The edit is accepted, and then the image of the root can be made and has a property. -/
def EditCall.Makes (c : EditCall) (held : List SharedTree) (W : Workspace)
    (P : SharedTree → Prop) : Prop :=
  ∃ W' u, exec (Workspace.edit c.edit) W = (.ok (), W') ∧
    (exec (Workspace.image held Outline.root) W').1 = .ok u ∧ P u

variable {W : Workspace} {o' : Outline} {held : List SharedTree} {c : EditCall} {p : Handle}
  {j : Item} {P Q : SharedTree → Prop}

theorem EditCall.Makes.accepted (m : c.Makes held W P) :
    Accepted (exec (Workspace.edit c.edit) W).1 := by
  obtain ⟨W', u, hx, -⟩ := m
  rw [hx]
  exact fun v hv => by cases hv

theorem EditCall.Makes.imp (m : c.Makes held W P) (h : ∀ u, P u → Q u) : c.Makes held W Q := by
  obtain ⟨W', u, hx, hu, hP⟩ := m
  exact ⟨W', u, hx, hu, h u hP⟩

theorem Outline.Sound.image_root_iff (s : W.outline.Sound) {t : FileTree}
    (held : List SharedTree) :
    (∃ u, (exec (Workspace.image held Outline.root) W).1 = .ok u ∧ u.plain = t) ↔
      W.outline.plainImage Outline.root = .ok t := by
  obtain ⟨r, hr, -⟩ := s.tree.root
  rcases hrun : exec (Workspace.image held Outline.root) W with ⟨e | u, W'⟩
  · rw [← (Workspace.exec_image s hr hrun).1]
    exact iff_of_false (fun ⟨_, hu, _⟩ => by cases hu) fun hu => by cases hu
  · rw [← (Workspace.exec_image s hr hrun).1]
    constructor
    · rintro ⟨_, hu, rfl⟩
      exact congrArg (Except.ok ∘ Tree.plain) (Except.ok.inj hu)
    · intro hu
      exact ⟨u, rfl, Except.ok.inj hu⟩

theorem Outline.Sound.image_root_of_error (s : W.outline.Sound) {e : Failure}
    (he : W.outline.plainImage Outline.root = .error e) (held : List SharedTree) :
    (exec (Workspace.image held Outline.root) W).1 = .error e := by
  obtain ⟨r, hr, -⟩ := s.tree.root
  rcases hrun : exec (Workspace.image held Outline.root) W with ⟨e' | u, W'⟩
  · have hplain := (Workspace.exec_image s hr hrun).1.trans he
    exact congrArg Except.error (Except.error.inj hplain)
  · have hplain := (Workspace.exec_image s hr hrun).1.trans he
    cases hplain

/-- What an edit of a sound outline makes of the image of the root. -/
theorem Outline.Sound.makes {t : FileTree} (s : W.outline.Sound)
    (hlive : ∀ x ∈ c.items, W.outline.Reachable x)
    (hx : exec c.edit W.outline = (.ok (), o')) (ht : o'.plainImage Outline.root = .ok t)
    (held : List SharedTree) : c.Makes held W fun u => u.plain = t := by
  have s' : o'.Sound := s.edit hlive hx fun v hv => by cases hv
  obtain ⟨u, hu, huc⟩ := (s'.image_root_iff (W := { W with outline := o' }) held).mpr ht
  exact ⟨_, u, by rw [Workspace.exec_edit, hx], hu, huc⟩

theorem Outline.Sound.makes_of_mark {o₁ : Outline} {l : List Handle} {t : FileTree}
    (s : W.outline.Sound) (hlive : ∀ x ∈ c.items, W.outline.Reachable x)
    (hc : exec c.edit W.outline = exec ((Edit.markDirty p).adapt .violation) o₁)
    (w₁ : o₁.WellFormed) (a₁ : o₁.Attached) (hl : o₁.Line p l)
    (ht : o₁.plainImage Outline.root = .ok t) (held : List SharedTree) :
    c.Makes held W fun u => u.plain = t := by
  obtain ⟨o', hrun, hsame⟩ := w₁.exec_markDirty_image a₁ hl
  refine s.makes hlive ?_ (hsame.trans ht) held
  rw [hc, exec_adapt, hrun]
  rfl

/-- Putting the children of an item into another order, by an edit that comes to that. -/
theorem Outline.Sound.makes_rearranged {cs : List Handle} {t : SharedTree} (s : W.outline.Sound)
    (hj : W.outline.get? p = some j) (hcs : cs.Perm j.children)
    (hlive : ∀ x ∈ c.items, W.outline.Reachable x)
    (hc : exec c.edit W.outline = exec ((Edit.markDirty p).adapt .violation)
      (W.outline.set p { j with children := cs }))
    (ht : W.outline.plainImage Outline.root = .ok t.plain) (held : List SharedTree) :
    c.Makes held W (Rearranged W.outline p j.children cs t) := by
  have w := s.tree
  have a := s.attached
  have w' := w.permute hj hcs
  have a' := a.permute hj hcs
  have complete := w.complete_of_plainImage a ht
  have ag : AgreeOn Item.stem W.outline (W.outline.set p { j with children := cs }) := .set hj rfl
  obtain ⟨l, hl⟩ := w.exists_line a hj
  obtain ⟨u, hu⟩ := (complete.permute w a hj hcs).exists_plainImage w' a'
  refine (s.makes_of_mark hlive hc w' a' (ag.line hl) hu held).imp fun v hv => ?_
  exact w.rearranged a hj hcs ht (hv ▸ hu)

theorem Outline.Sound.makes_write {i : Item} {h : Handle} {t : FileTree} (s : W.outline.Sound)
    (hi : W.outline.get? h = some i) (hk : i.kind = .file)
    (ht : W.outline.plainImage Outline.root = .ok t) (d : Bytes) (held : List SharedTree) :
    (EditCall.setContents h d).Makes held W fun u =>
      u.plain = t.write d (W.outline.diskPath h) := by
  have w := s.tree
  have ag : AgreeOn Item.frame W.outline (W.outline.set h { i with contents := some d }) :=
    .set hi rfl
  obtain ⟨l, hl⟩ := w.exists_line s.attached hi
  refine s.makes_of_mark (fun x hx => ?_) ?_ (w.congr ag) (s.attached.congr ag.links)
    (ag.stem.line hl) (w.plainImage_setContents s.attached hi hk d ht) held
  · rw [List.mem_singleton.mp hx]
    exact w.reachable s.attached hi
  · show exec (Edit.setContents h d) W.outline = _
    rw [exec_setContents hi, if_pos hk]

theorem Outline.Sound.makes_without {i : Item} {h : Handle} {t : FileTree} (s : W.outline.Sound)
    (hi : W.outline.get? h = some i) (hp : i.parent = some p)
    (ht : W.outline.plainImage Outline.root = .ok t) (held : List SharedTree) :
    (EditCall.remove h).Makes held W fun u => u.plain = t.without (W.outline.pathsOf h) := by
  have w := s.tree
  obtain ⟨j, hj, -⟩ := w.parent_of s.attached hi hp
  obtain ⟨l, hl⟩ := w.exists_line s.attached hj
  obtain ⟨o₁, cut, hrun⟩ := w.exec_remove s.attached hi hp
  obtain ⟨w₁, a₁, hl₁⟩ := cut.tree w s.attached hi hp hl
  have ht₁ := cut.plainImage w s.attached hi hp ht
  refine s.makes_of_mark (fun x hx => ?_) ?_ w₁ a₁ hl₁ ht₁ held
  · rw [List.mem_singleton.mp hx]
    exact w.reachable s.attached hi
  · show exec ((Edit.remove h).adapt Failure.violation) W.outline = _
    rw [exec_adapt, exec_adapt, hrun]

theorem Outline.Sound.makes_move {start stop : Nat} {t : SharedTree} {d : Handle}
    (s : W.outline.Sound) (hj : W.outline.get? p = some j) (hd : j.children[start]? = some d)
    (hstop : stop < j.children.length) (ht : W.outline.plainImage Outline.root = .ok t.plain)
    (held : List SharedTree) :
    (EditCall.move p start stop).Makes held W (Rearranged W.outline p j.children
      ((j.children.eraseIdx start).insertIdx stop d) t) := by
  refine s.makes_rearranged hj (perm_of_move hd hstop) (fun x hx => ?_) ?_ ht held
  · rw [List.mem_singleton.mp hx]
    exact s.tree.reachable s.attached hj
  · show exec ((Edit.move p start stop).adapt Failure.violation) W.outline = _
    rw [exec_adapt, exec_adapt, exec_move hj hd hstop]

theorem Outline.Sound.makes_reorder {order : List Handle} {t : SharedTree} (s : W.outline.Sound)
    (hj : W.outline.get? p = some j) (horder : order.Perm j.children)
    (ht : W.outline.plainImage Outline.root = .ok t.plain) (held : List SharedTree) :
    (EditCall.reorder p order).Makes held W (Rearranged W.outline p j.children order t) := by
  refine s.makes_rearranged hj horder (fun x hx => ?_) ?_ ht held
  · rw [List.mem_singleton.mp hx]
    exact s.tree.reachable s.attached hj
  · show exec ((Edit.reorder p order).adapt Failure.violation) W.outline = _
    rw [exec_adapt, exec_adapt, exec_reorder hj ((isReorder_iff (s.tree.nodup hj)).mpr horder)]

theorem bounds_of_move {start stop : Nat} (hj : W.outline.get? p = some j)
    (ha : Accepted (exec (Workspace.edit (EditCall.move p start stop).edit) W).1) :
    start < j.children.length ∧ stop < j.children.length := by
  obtain ⟨_, hx⟩ := exec_of_accepted (x := Edit.move p start stop) rfl ha
  obtain ⟨o₁, hmove, -⟩ := Edit.exec_move_eq_ok hx
  obtain ⟨j', d, hj', hd, hstop, -⟩ := moveChild_eq_ok hmove
  rw [hj] at hj'
  obtain rfl := Option.some.inj hj'
  exact ⟨(List.getElem?_eq_some_iff.mp hd).1, hstop⟩

theorem perm_of_reorder {order : List Handle} (hn : j.children.Nodup)
    (hj : W.outline.get? p = some j)
    (ha : Accepted (exec (Workspace.edit (EditCall.reorder p order).edit) W).1) :
    order.Perm j.children := by
  obtain ⟨_, hx⟩ := exec_of_accepted (x := Edit.reorder p order) rfl ha
  obtain ⟨o₁, harrange, -⟩ := Edit.exec_reorder_eq_ok hx
  obtain ⟨j', hj', horder, -⟩ := arrange_eq_ok harrange
  rw [hj] at hj'
  obtain rfl := Option.some.inj hj'
  exact (isReorder_iff hn).mp horder

/-! ### On editing runs -/

/-- What edits make of the image of the root, when it can be made.  Files can be given contents,
items other than the root can be removed, a child can be moved from any position to any other, and
the children can be put into any order. -/
theorem EditRun.image_of_edited (run : EditRun W) {t : SharedTree}
    (ht : (exec (Workspace.image held Outline.root) W).1 = .ok t) (held' : List SharedTree) :
    (∀ f d, W.outline.Reachable f → W.outline.isFile f = true → ∃ names b,
      W.outline.diskNames f = .ok names ∧ (t.find? names).bind Tree.contents? = some b ∧
        (EditCall.setContents f d).Makes held' W fun u => u.plain = t.plain.write d names) ∧
    (∀ x, W.outline.Reachable x → x ≠ Outline.root →
      (∀ names, names ∈ W.outline.pathsOf x ↔ ∃ y, W.outline.Below x y ∧
        W.outline.isOnDisk y = true ∧ W.outline.diskNames y = .ok names) ∧
      (EditCall.remove x).Makes held' W fun u =>
        u.plain = t.plain.without (W.outline.pathsOf x)) ∧
    ∀ p, W.outline.Reachable p → ∃ j, W.outline.get? p = some j ∧
      (∀ start stop,
        (Accepted (exec (Workspace.edit (EditCall.move p start stop).edit) W).1 ↔
          start < j.children.length ∧ stop < j.children.length) ∧
        ∀ c, j.children[start]? = some c → stop < j.children.length →
          (EditCall.move p start stop).Makes held' W (Rearranged W.outline p j.children
            ((j.children.eraseIdx start).insertIdx stop c) t)) ∧
      ∀ order, (Accepted (exec (Workspace.edit (EditCall.reorder p order).edit) W).1 ↔
          order.Perm j.children) ∧
        (order.Perm j.children → (EditCall.reorder p order).Makes held' W
          (Rearranged W.outline p j.children order t)) := by
  have s := run.sound
  have w := s.tree
  have a := s.attached
  have himage := (s.image_root_iff held).mp ⟨t, ht, rfl⟩
  have complete := w.complete_of_plainImage a himage
  refine ⟨fun f d hf hfile => ?_, fun x hx hroot => ?_, fun p hp => ?_⟩
  · obtain ⟨i, hi⟩ := w.live_of_reachable hf
    have hk : i.kind = .file := by
      rw [isFile_eq hi] at hfile
      simpa [Kind.holdsData] using hfile
    obtain ⟨b, hb⟩ := complete.data hf hfile
    exact ⟨_, b, w.diskNames_of_get? a hi, w.find?_of_data a himage hi hk hb,
      s.makes_write hi hk himage d held'⟩
  · obtain ⟨i, hi⟩ := w.live_of_reachable hx
    obtain ⟨q, j, hq, hj, -⟩ := a hi hroot
    exact ⟨fun names => w.mem_pathsOf_iff a hi, s.makes_without hi hq himage held'⟩
  · obtain ⟨j, hj⟩ := w.live_of_reachable hp
    have makes : ∀ {start stop d}, j.children[start]? = some d → stop < j.children.length →
        (EditCall.move p start stop).Makes held' W (Rearranged W.outline p j.children
          ((j.children.eraseIdx start).insertIdx stop d) t) :=
      fun hd hstop => s.makes_move hj hd hstop himage held'
    refine ⟨j, hj, fun start stop => ⟨⟨bounds_of_move hj, fun hbounds => ?_⟩,
      fun d hd hstop => makes hd hstop⟩, fun order => ⟨⟨perm_of_reorder (w.nodup hj) hj,
      fun horder => ?_⟩, fun horder => s.makes_reorder hj horder himage held'⟩⟩
    · exact (makes (List.getElem?_eq_getElem hbounds.1) hbounds.2).accepted
    · exact (s.makes_reorder hj horder himage held').accepted

/-- A group with a file group of two files and a folder: a file in the folder is given contents, the
file group is removed, or it is put behind the folder. -/
theorem EditRun.image_of_edited_group : ∃ (W : Workspace) (t : SharedTree), EditRun W ∧
    (exec (Workspace.image [] Outline.root) W).1 = .ok t ∧
    t.plain = .dir () [("a", .file () [0x31]), ("b", .file () []),
      ("d", .dir () [("c", .file () [0x32])])] ∧
    (EditCall.setContents ⟨6, 0⟩ [0x39]).Makes [] W (fun u =>
      u.plain = .dir () [("a", .file () [0x31]), ("b", .file () []),
        ("d", .dir () [("c", .file () [0x39])])]) ∧
    (EditCall.remove ⟨2, 0⟩).Makes [] W (fun u =>
      u.plain = .dir () [("d", .dir () [("c", .file () [0x32])])]) ∧
    (EditCall.reorder ⟨1, 0⟩ [⟨5, 0⟩, ⟨2, 0⟩]).Makes [] W fun u => u.names = ["d", "a", "b"] := by
  obtain ⟨W, run, hW⟩ := EditRun.exists_of_play none 0
    [.edit (.add Outline.root .group "Package"),
      .edit (.add ⟨1, 0⟩ .fileGroup "texts"), .edit (.add ⟨2, 0⟩ .file "a"),
      .edit (.setContents ⟨3, 0⟩ [0x31]), .edit (.add ⟨2, 0⟩ .file "b"),
      .edit (.setContents ⟨4, 0⟩ []), .edit (.add ⟨1, 0⟩ .folder "d"),
      .edit (.add ⟨5, 0⟩ .file "c"), .edit (.setContents ⟨6, 0⟩ [0x32])]
    (fun W =>
      [⟨1, 0⟩, ⟨2, 0⟩, ⟨6, 0⟩].all W.outline.contains && W.outline.isFile ⟨6, 0⟩ &&
      (W.outline.diskNames ⟨6, 0⟩).toOption == some ["d", "c"] &&
      W.outline.pathsOf ⟨2, 0⟩ == [["a"], ["b"]] &&
      (W.outline.get? ⟨1, 0⟩).any (·.children == [⟨2, 0⟩, ⟨5, 0⟩]) &&
      [⟨2, 0⟩, ⟨5, 0⟩].flatMap (W.outline.shownIn []) == ["a", "b", "d"] &&
      [⟨5, 0⟩, ⟨2, 0⟩].flatMap (W.outline.shownIn []) == ["d", "a", "b"] &&
      (exec (Workspace.image [] Outline.root) W).1.toOption.any
        (·.same (Tree.dir () [("a", .file () [0x31]), ("b", .file () []),
          ("d", .dir () [("c", .file () [0x32])])])))
    (by decide +kernel)
  simp only [Bool.and_eq_true, beq_iff_eq, List.all_cons, List.all_nil] at hW
  obtain ⟨⟨⟨⟨⟨⟨⟨⟨hgroup, hgone, hfile, -⟩, hkind⟩, hnames⟩, hpaths⟩, hchildren⟩, hold⟩, hnew⟩,
    himage⟩ := hW
  obtain ⟨t, ht, hsame⟩ := (Option.any_eq_true ..).mp himage
  obtain ⟨i, hi, hcs⟩ := (Option.any_eq_true ..).mp hchildren
  have ht := toOption_eq_some.mp ht
  have hplain := (Tree.same_iff _ _).mp hsame
  have so := run.sound
  obtain ⟨write, without, order⟩ := run.image_of_edited ht []
  refine ⟨W, t, run, ht, hplain, ?_, ?_, ?_⟩
  · obtain ⟨names, b, hn, -, makes⟩ := write ⟨6, 0⟩ [0x39] (so.reachable hfile) hkind
    rw [hn] at hnames
    obtain rfl := Option.some.inj hnames
    exact makes.imp fun u hu => by rw [hu, hplain]; rfl
  · obtain ⟨-, makes⟩ := without ⟨2, 0⟩ (so.reachable hgone) (by decide)
    exact makes.imp fun u hu => by rw [hu, hplain, hpaths]; rfl
  · obtain ⟨j, hj, -, reorder⟩ := order ⟨1, 0⟩ (so.reachable hgroup)
    rw [hi] at hj
    obtain rfl := Option.some.inj hj
    rw [beq_iff_eq.mp hcs] at reorder
    refine ((reorder _).2 (.swap ..)).imp fun u r => ?_
    obtain ⟨before, after, htn, hun⟩ := r.order [] t u rfl rfl
    have hnamed : t.names = ["a", "b", "d"] := (Tree.names_map _ t).symm.trans
      (congrArg Tree.names hplain)
    rw [hnamed, hold] at htn
    have hlen := congrArg List.length htn
    simp only [List.length_append, List.length_cons, List.length_nil] at hlen
    obtain rfl : before = [] := List.eq_nil_of_length_eq_zero (by omega)
    obtain rfl : after = [] := List.eq_nil_of_length_eq_zero (by omega)
    exact hun.trans (by rw [hnew]; rfl)

end PackageOutline
