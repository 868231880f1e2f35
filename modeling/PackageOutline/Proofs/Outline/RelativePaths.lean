import Mathlib.Data.List.Induction
import PackageOutline.Proofs.Outline.Calls

/-! # Relative paths

The relative path of an item that the root leads to finds the item again, and what is found at a path
has that path, up to empty components.  Both follow from one relation: `Outline.Trail h names` says that
going down from the root by these names comes to `h`.

* `WellFormed.relativePath_eq`: the relative path of an item joins the names of its trail.
* `WellFormed.descend_iff`: names are followed down to an item exactly when they are its trail.  From the
  left this is the recursion of `Outline.descend`, from the right that of the trail (`descend_concat`);
  siblings have different names, so that no other child is found.
* `Outline.SameSets`: the same items with the same children in any order.  Paths and lookups are the same
  (`SameSets.relativePath_eq`, `SameSets.find?_eq`). -/

namespace PackageOutline

namespace Outline

variable {o o' o'' : Outline} {h c p : Handle} {i j : Item} {l : List Handle} {names : List String}
  {name s : String}

/-- `Trail h names`: going down from the root by these names comes to `h`. -/
inductive Trail (o : Outline) : Handle → List String → Prop
  | root : Trail o root []
  | child {p c : Handle} {j i : Item} {names : List String} : Trail o p names →
      o.get? p = some j → c ∈ j.children → o.get? c = some i → Trail o c (names ++ [i.name])

theorem Trail.reachable (t : o.Trail h names) : o.Reachable h := by
  induction t with
  | root => exact .root
  | child _ hj hc _ ih => exact .child ih hj hc

theorem WellFormed.exists_trail (w : o.WellFormed) (hr : o.Reachable h) :
    ∃ names, o.Trail h names := by
  induction hr with
  | root => exact ⟨[], .root⟩
  | child _ hj hc ih =>
      obtain ⟨names, t⟩ := ih
      obtain ⟨i, hi, -⟩ := w.child hj hc
      exact ⟨_, .child t hj hc hi⟩

theorem WellFormed.valid_of_trail (w : o.WellFormed) (t : o.Trail h names) :
    ∀ n ∈ names, Identifier.isValid n = true := by
  induction t with
  | root => exact fun n hn => absurd hn List.not_mem_nil
  | @child p c j i names _ hj hc hi ih =>
      intro n hn
      rcases List.mem_append.mp hn with hn | hn
      · exact ih n hn
      · rw [List.mem_singleton.mp hn]
        refine w.valid hi ?_
        rintro rfl
        obtain ⟨r, hr, -, hnone⟩ := w.root
        obtain ⟨i', hi', hp⟩ := w.child hj hc
        rw [hr] at hi'
        rw [← Option.some.inj hi', hnone] at hp
        cases hp

/-! ### Relative paths -/

theorem components_eq (s : String) :
    components s = ((s.split '/').toList.map (·.copy)).filter (· ≠ "") := by
  rw [String.toList_split_char, List.filter_map]
  unfold components
  congr 1
  refine List.filter_congr fun p _ => ?_
  simp

theorem components_intercalate (h : ∀ n ∈ names, n ≠ "" ∧ '/' ∉ n.toList) :
    components ("/".intercalate names) = names := by
  unfold components
  rw [String.toList_intercalate]
  cases names with
  | nil => rfl
  | cons n names =>
      have hsplit : (['/'].intercalate ((n :: names).map String.toList)).splitOn '/' =
          (n :: names).map String.toList :=
        List.splitOn_intercalate '/' (by simpa using fun m hm => (h m hm).2) (by simp)
      rw [show "/".toList = ['/'] from rfl, hsplit, List.filter_eq_self.mpr]
      · simp
      · intro q hq
        obtain ⟨m, hm, rfl⟩ := List.mem_map.mp hq
        simpa using (h m hm).1

theorem WellFormed.line_of_trail (w : o.WellFormed) (t : o.Trail h names) :
    ∃ l, o.Line h l ∧ (l.reverse.tail.map fun x => (o.get? x).getD default).map Item.name = names := by
  induction t with
  | root =>
      obtain ⟨r, hr, -, hnone⟩ := w.root
      exact ⟨_, .root hr hnone, rfl⟩
  | @child p c j i names _ hj hc hi ih =>
      obtain ⟨l, hl, hnames⟩ := ih
      obtain ⟨i', hi', hp⟩ := w.child hj hc
      refine ⟨c :: l, .step hi' hp hl, ?_⟩
      have hne : l.reverse ≠ [] := by
        rw [ne_eq, List.reverse_eq_nil_iff]
        exact List.ne_nil_of_mem hl.self_mem
      rw [List.reverse_cons, List.tail_append_of_ne_nil hne, List.map_append, List.map_append, hnames]
      simp [hi]

/-- The relative path of an item joins the names on its trail. -/
theorem WellFormed.relativePath_eq (w : o.WellFormed) (t : o.Trail h names) :
    o.relativePath h = .ok ("/".intercalate names) := by
  obtain ⟨l, hl, hnames⟩ := w.line_of_trail t
  rw [w.relativePath_of_line hl, hnames]

/-! ### Following names -/

theorem child?_of_get? (hj : o.get? p = some j) (name : String) :
    o.child? p name = .ok (j.children.find? (o.isNamed name)) := by
  unfold child?
  rw [item_of_get? hj]
  rfl

theorem WellFormed.child?_iff (w : o.WellFormed) (hj : o.get? p = some j) :
    o.child? p name = .ok (some c) ↔ c ∈ j.children ∧ ∃ i, o.get? c = some i ∧ i.name = name := by
  have named : ∀ {d : Handle}, o.isNamed name d = true ↔ ∃ i, o.get? d = some i ∧ i.name = name := by
    intro d
    unfold isNamed
    cases o.get? d <;> simp
  rw [child?_of_get? hj, Except.ok.injEq]
  constructor
  · intro hc
    exact ⟨List.mem_of_find?_eq_some hc, named.mp (List.find?_some hc)⟩
  · rintro ⟨hc, hname⟩
    cases hd : j.children.find? (o.isNamed name) with
    | none => exact absurd (named.mpr hname) (List.find?_eq_none.mp hd c hc)
    | some d =>
        obtain ⟨i, hi, hin⟩ := hname
        obtain ⟨k, hk, hkn⟩ := named.mp (List.find?_some hd)
        rw [w.siblings hj hc (List.mem_of_find?_eq_some hd) hi hk (hin.trans hkn.symm)]

/-- The last name is looked up where the others lead. -/
theorem descend_concat (o : Outline) (names : List String) (name : String) (h : Handle) :
    o.descend (names ++ [name]) h =
      o.descend names h >>= fun found => found.elim (.ok none) (o.child? · name) := by
  induction names generalizing h with
  | nil =>
      rw [List.nil_append]
      simp only [descend, bind, Except.bind, Option.elim_some]
      rcases o.child? h name with v | ⟨_ | c⟩ <;> rfl
  | cons n names ih =>
      rw [List.cons_append]
      simp only [descend, bind, Except.bind] at ih ⊢
      rcases o.child? h n with v | ⟨_ | c⟩
      · rfl
      · rfl
      · exact ih c

/-- Names are followed down from the root to an item exactly when they are the names on its trail. -/
theorem WellFormed.descend_iff (w : o.WellFormed) :
    o.descend names Outline.root = .ok (some h) ↔ o.Trail h names := by
  constructor
  · intro hd
    induction names using List.reverseRecOn generalizing h with
    | nil =>
        obtain rfl := Option.some.inj (Except.ok.inj hd)
        exact .root
    | append_singleton names name ih =>
        rw [descend_concat, bind_eq_ok] at hd
        obtain ⟨_ | d, hnames, hd⟩ := hd
        · cases hd
        · have t := ih hnames
          obtain ⟨j, hj⟩ := w.live_of_reachable t.reachable
          obtain ⟨hc, i, hi, rfl⟩ := (w.child?_iff hj).mp hd
          exact .child t hj hc hi
  · intro t
    induction t with
    | root => rfl
    | child _ hj hc hi ih =>
        rw [descend_concat, ih]
        exact (w.child?_iff hj).mpr ⟨hc, _, hi, rfl⟩

theorem WellFormed.descend_isOk (w : o.WellFormed) (hi : o.get? h = some i) :
    ∃ found, o.descend names h = .ok found := by
  induction names generalizing h i with
  | nil => exact ⟨_, rfl⟩
  | cons name names ih =>
      simp only [descend, child?_of_get? hi, bind, Except.bind]
      cases hc : i.children.find? (o.isNamed name) with
      | none => exact ⟨none, rfl⟩
      | some c =>
          obtain ⟨k, hk, -⟩ := w.child hi (List.mem_of_find?_eq_some hc)
          exact ih hk

theorem WellFormed.find?_isOk (w : o.WellFormed) (s : String) : ∃ found, o.find? s = .ok found := by
  obtain ⟨r, hr, -⟩ := w.root
  exact w.descend_isOk hr

/-- An item is found at a path when the components of the path, empty ones aside, are the names on its
trail. -/
theorem WellFormed.find?_path_iff (w : o.WellFormed) :
    o.find? s = .ok (some h) ↔ o.Trail h (components s) := w.descend_iff

/-- The relative path of an item finds it. -/
theorem WellFormed.find?_relativePath (w : o.WellFormed) (hr : o.Reachable h) :
    ∃ path, o.relativePath h = .ok path ∧ o.find? path = .ok (some h) := by
  obtain ⟨names, t⟩ := w.exists_trail hr
  refine ⟨_, w.relativePath_eq t, w.find?_path_iff.mpr ?_⟩
  rwa [components_intercalate fun n hn => ?_]
  obtain ⟨hne, -, -, hslash⟩ := Identifier.isValid_iff.mp (w.valid_of_trail t n hn)
  exact ⟨hne, hslash⟩

/-- What is found at a path has that path, without its empty components. -/
theorem WellFormed.relativePath_of_find? (w : o.WellFormed) (hf : o.find? s = .ok (some h)) :
    o.Reachable h ∧ o.relativePath h =
      .ok ("/".intercalate (((s.split '/').toList.map (·.copy)).filter (· ≠ ""))) := by
  have t := w.find?_path_iff.mp hf
  refine ⟨t.reachable, ?_⟩
  rw [w.relativePath_eq t, components_eq]

/-! ### The order of siblings -/

/-- The outlines have the same items, and every item has the same children in some order. -/
structure SameSets (o o' : Outline) : Prop where
  stem : AgreeOn Item.stem o o'
  perm : ∀ {p j j'}, o.get? p = some j → o'.get? p = some j' → j'.children.Perm j.children

theorem SameSets.symm (a : SameSets o o') : SameSets o' o :=
  ⟨a.stem.symm, fun hj hj' => (a.perm hj' hj).symm⟩

instance : IsPreorder Outline SameSets where
  refl o := by
    refine ⟨.refl _ o, fun hj hj' => ?_⟩
    rw [hj] at hj'
    rw [Option.some.inj hj']
  trans _ _ _ a b := by
    refine ⟨a.stem.trans b.stem, fun hj hj'' => ?_⟩
    obtain ⟨k, hk, -⟩ := a.stem.get?_eq_some hj
    exact (b.perm hk hj'').trans (a.perm hj hk)

theorem Alike.sameSets (a : Alike Item.frame o o') : SameSets o o' := by
  refine ⟨a.agree.stem, fun {p j j'} hj hj' => ?_⟩
  obtain ⟨k, hk, hf⟩ := a.agree.get?_eq_some hj
  rw [hj'] at hk
  rw [Option.some.inj hk, (Item.frame_eq_iff.mp hf).2.2.2]

/-- The children of an item may be put into another order. -/
theorem SameSets.set {cs : List Handle} (hj : o.get? p = some j) (hcs : cs.Perm j.children) :
    SameSets o (o.set p { j with children := cs }) := by
  refine ⟨.set hj rfl, fun {q k k'} hk hk' => ?_⟩
  rcases of_get?_set hj hk' with ⟨rfl, rfl⟩ | ⟨-, hk'⟩
  · rw [hj] at hk
    rw [← Option.some.inj hk]
    exact hcs
  · rw [hk] at hk'
    rw [Option.some.inj hk']

theorem SameSets.wellFormed (a : SameSets o o') (w : o.WellFormed) : o'.WellFormed := by
  refine w.of_stem a.stem (fun {p j c} hj hc => ?_) (fun {p j} hj => ?_)
    fun {p j c d i k} hj hc hd => ?_
  · obtain ⟨j₀, hj₀, -⟩ := a.stem.symm.get?_eq_some hj
    exact w.child hj₀ ((a.perm hj₀ hj).mem_iff.mp hc)
  · obtain ⟨j₀, hj₀, -⟩ := a.stem.symm.get?_eq_some hj
    exact (a.perm hj₀ hj).nodup_iff.mpr (w.nodup hj₀)
  · obtain ⟨j₀, hj₀, -⟩ := a.stem.symm.get?_eq_some hj
    exact w.siblings hj₀ ((a.perm hj₀ hj).mem_iff.mp hc) ((a.perm hj₀ hj).mem_iff.mp hd)

theorem SameSets.trail (a : SameSets o o') (t : o.Trail h names) : o'.Trail h names := by
  induction t with
  | root => exact .root
  | child _ hj hc hi ih =>
      obtain ⟨j', hj', -⟩ := a.stem.get?_eq_some hj
      obtain ⟨i', hi', hf⟩ := a.stem.get?_eq_some hi
      rw [← (Item.stem_eq_iff.mp hf).2.1]
      exact .child ih hj' ((a.perm hj hj').mem_iff.mpr hc) hi'

/-- What is found at a path does not depend on the order of siblings. -/
theorem SameSets.find?_eq (a : SameSets o o') (w : o.WellFormed) (s : String) :
    o'.find? s = o.find? s := by
  have w' := a.wellFormed w
  obtain ⟨found, hfound⟩ := w.find?_isOk s
  obtain ⟨found', hfound'⟩ := w'.find?_isOk s
  rw [hfound, hfound']
  congr 1
  refine Option.ext fun h => ?_
  have hiff : o'.find? s = .ok (some h) ↔ o.find? s = .ok (some h) := by
    rw [w.find?_path_iff, w'.find?_path_iff]
    exact ⟨a.symm.trail, a.trail⟩
  rwa [hfound, hfound', Except.ok.injEq, Except.ok.injEq] at hiff

/-! ### Edits of the order -/

theorem move_sameSets (p : Handle) (start stop : Nat) :
    Always SameSets (Edit.move p start stop) := by
  refine (Edit.always_change fun hm => ?_).bind fun _ => (Edit.markDirty_alike p).mono Alike.sameSets
  obtain ⟨j, c, hj, hc, hstop, rfl⟩ := moveChild_eq_ok hm
  exact .set hj (perm_of_move hc hstop)

theorem WellFormed.reorder_sameSets {r : Except Violation Unit} {order : List Handle}
    (w : o.WellFormed) (hx : exec (Edit.reorder p order) o = (r, o')) : SameSets o o' := by
  rcases Edit.exec_change_cases hx with ⟨v, -, rfl⟩ | ⟨o₁, harrange, hmark⟩
  · exact refl o'
  · obtain ⟨j, hj, horder, rfl⟩ := arrange_eq_ok harrange
    exact IsTrans.trans _ _ _ (.set hj ((isReorder_iff (w.nodup hj)).mp horder))
      (Edit.markDirty_alike p hmark).sameSets

end Outline

open Outline

/-- Whatever was called before: the relative path of an item that the root leads to finds that item, so
no two of them have the same path; a lookup is never refused, and what it finds is an item that the root
leads to, with the path without its empty components.  Neither paths nor lookups depend on the order of
siblings; moving and reordering change nothing else that they could depend on. -/
theorem CallRun.lookup_inverts_path {may : Outline → Call → Prop} {n : Nat} {W : Workspace}
    (run : CallRun may n W) (hn : n < 2 ^ 32) :
    (∀ h, W.outline.Reachable h →
      ∃ path, W.outline.relativePath h = .ok path ∧ W.outline.find? path = .ok (some h)) ∧
    (∀ h x, W.outline.Reachable h → W.outline.Reachable x →
      W.outline.relativePath h = W.outline.relativePath x → h = x) ∧
    (∀ s, (∃ found, W.outline.find? s = .ok found) ∧
      ∀ h, W.outline.find? s = .ok (some h) → W.outline.Reachable h ∧ W.outline.relativePath h =
        .ok ("/".intercalate (((s.split '/').toList.map (·.copy)).filter (· ≠ "")))) ∧
    (∀ o', SameSets W.outline o' → (∀ h, o'.relativePath h = W.outline.relativePath h) ∧
      ∀ s, o'.find? s = W.outline.find? s) ∧
    (∀ p start stop, SameSets W.outline ((Call.move p start stop).after W).outline) ∧
    ∀ p order, SameSets W.outline ((Call.reorder p order).after W).outline := by
  have w := (run.upheld (Tended.upheld may) hn).tree
  refine ⟨fun h hr => w.find?_relativePath hr, fun h x hr hx hpath => ?_,
    fun s => ⟨w.find?_isOk s, fun h hf => w.relativePath_of_find? hf⟩,
    fun o' a => ⟨a.stem.relativePath_eq, a.find?_eq w⟩, fun p start stop => ?_, fun p order => ?_⟩
  · obtain ⟨path, hpathh, hfindh⟩ := w.find?_relativePath hr
    obtain ⟨path', hpathx, hfindx⟩ := w.find?_relativePath hx
    rw [hpathh, hpathx] at hpath
    rw [Except.ok.inj hpath, hfindx] at hfindh
    exact (Option.some.inj (Except.ok.inj hfindh)).symm
  · exact Upheld.always_work (move_sameSets p start stop) W
  · have hreorder : Always (fun o o' => o.WellFormed → SameSets o o') (Edit.reorder p order) :=
      fun _ _ _ hx w => w.reorder_sameSets hx
    exact Upheld.always_work hreorder W w

/-- A file that was attached late to a folder that was renamed, next to a file of the same name, in slots
that are used again. -/
theorem CallRun.lookup_inverts_path_of_renamed_folder : ∃ (n : Nat) (W : Workspace),
    CallRun (fun _ _ => True) n W ∧ n < 2 ^ 32 ∧ W.outline.Reachable ⟨4, 0⟩ ∧
    W.outline.relativePath ⟨4, 0⟩ = .ok "Package/c/b" ∧
    W.outline.find? "Package/c/b" = .ok (some ⟨4, 0⟩) ∧
    W.outline.find? "//Package/c//b/" = .ok (some ⟨4, 0⟩) ∧
    "/".intercalate ((("//Package/c//b/".split '/').toList.map (·.copy)).filter (· ≠ "")) =
      "Package/c/b" ∧
    W.outline.find? "Package/b" = .ok (some ⟨3, 1⟩) ∧
    ((Call.move ⟨1, 0⟩ 0 1).after W).outline.find? "Package/b" = .ok (some ⟨3, 1⟩) := by
  obtain ⟨W, run, hpath, hslashes, hbeside⟩ := CallRun.exists_of_play (fun _ _ => True) "P"
    [.add Outline.root .group "Package", .add ⟨1, 0⟩ .folder "a", .add ⟨2, 0⟩ .file "b",
      .remove ⟨2, 0⟩, .add ⟨1, 0⟩ .file "b", .add ⟨1, 0⟩ .folder "a", .create ⟨2, 1⟩ .file "b",
      .attach ⟨2, 1⟩ 0 ⟨4, 0⟩, .rename ⟨2, 1⟩ "c"]
    2 (fun W => W.outline.relativePath ⟨4, 0⟩ = .ok "Package/c/b" ∧
      W.outline.find? "//Package/c//b/" = .ok (some ⟨4, 0⟩) ∧
      W.outline.find? "Package/b" = .ok (some ⟨3, 1⟩)) (by decide +kernel)
  have hless : 2 < 2 ^ 32 := by decide
  obtain ⟨finds, -, found, order, move, -⟩ := run.lookup_inverts_path hless
  obtain ⟨hreach, hnormal⟩ := (found "//Package/c//b/").2 _ hslashes
  obtain ⟨path, hpath', hfind⟩ := finds _ hreach
  obtain rfl := Except.ok.inj (hpath'.symm.trans hpath)
  exact ⟨2, W, run, hless, hreach, hpath, hfind, hslashes,
    Except.ok.inj (hnormal.symm.trans hpath), hbeside,
    ((order _ (move ⟨1, 0⟩ 0 1)).2 "Package/b").trans hbeside⟩

end PackageOutline
