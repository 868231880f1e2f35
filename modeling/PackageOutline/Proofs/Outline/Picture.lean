import Mathlib.Data.List.Duplicate
import PackageOutline.Proofs.Outline.Plain
import PackageOutline.Proofs.Tree.Listing

/-! # What images show

An image shows the folders and files at and below its item: each at its path on disk, files with
their data, in the order of the walk.  So the listing of an image is the sequence of what the walk
meets (`WellFormed.listing_plainImage`).

An image cannot be made only when a file has no data or two items have one path
(`WellFormed.plainImage_error`). -/

namespace PackageOutline

namespace Workspace

theorem firstRepeat_eq_none {seen ns : List String} (hn : firstRepeat seen ns = none) :
    ns.Nodup ∧ ∀ n ∈ ns, n ∉ seen := by
  induction ns generalizing seen with
  | nil => simp
  | cons m ns ih =>
      rw [firstRepeat] at hn
      split at hn
      · cases hn
      · rename_i hm
        obtain ⟨hnd, hout⟩ := ih hn
        rw [List.contains_iff_mem] at hm
        refine ⟨List.nodup_cons.mpr ⟨fun hmem => hout m hmem List.mem_cons_self, hnd⟩, ?_⟩
        intro n hmem
        rcases List.mem_cons.mp hmem with rfl | hmem
        · exact hm
        · exact fun hs => hout n hmem (List.mem_cons_of_mem _ hs)

theorem firstRepeat_eq_some {seen ns : List String} {n : String}
    (hn : firstRepeat seen ns = some n) : n ∈ ns ∧ (n ∈ seen ∨ List.Duplicate n ns) := by
  induction ns generalizing seen with
  | nil => cases hn
  | cons m ns ih =>
      rw [firstRepeat] at hn
      split at hn
      · rename_i hm
        obtain rfl := Option.some.inj hn
        exact ⟨List.mem_cons_self, Or.inl (List.contains_iff_mem.mp hm)⟩
      · obtain ⟨hmem, hs | hd⟩ := ih hn
        · rcases List.mem_cons.mp hs with rfl | hs
          · exact ⟨List.mem_cons_self, Or.inr (.cons_mem hmem)⟩
          · exact ⟨List.mem_cons_of_mem _ hmem, Or.inl hs⟩
        · exact ⟨List.mem_cons_of_mem _ hmem, Or.inr (hd.duplicate_cons m)⟩

end Workspace

namespace Outline

variable {o : Outline} {h c x : Handle} {i k : Item} {t : FileTree}

/-- Whether the item of a handle is a folder or a file. -/
def isOnDisk (o : Outline) (x : Handle) : Bool := (o.get? x).any (·.kind.namesPath)

/-- Whether the item of a handle is a file. -/
def isFile (o : Outline) (x : Handle) : Bool := (o.get? x).any (·.kind.holdsData)

/-- The folders and files at and below an item, in the order of the walk. -/
def onDisk (o : Outline) (h : Handle) : List Handle := (o.family h).filter o.isOnDisk

/-- What there is of a folder or file in a listing. -/
def record (o : Outline) (x : Handle) : List String × Option Bytes :=
  (o.diskPath x, if o.isFile x then o.data x else none)

theorem isFile_eq (hi : o.get? h = some i) : o.isFile h = i.kind.holdsData := by
  unfold isFile
  rw [hi, Option.any_some]

theorem isFile_iff (hi : o.get? h = some i) : o.isFile h = true ↔ i.kind = .file := by
  rw [isFile_eq hi, Kind.holdsData, beq_iff_eq]

theorem isOnDisk_eq (hi : o.get? h = some i) : o.isOnDisk h = i.kind.namesPath := by
  unfold isOnDisk
  rw [hi, Option.any_some]

theorem isFile_congr {o' : Outline} (hk : (o'.get? x).map Item.kind = (o.get? x).map Item.kind) :
    o'.isFile x = o.isFile x := by
  have hany := congrArg (Option.any Kind.holdsData) hk
  rwa [Option.any_map, Option.any_map] at hany

theorem isOnDisk_congr {o' : Outline}
    (hk : (o'.get? x).map Item.kind = (o.get? x).map Item.kind) :
    o'.isOnDisk x = o.isOnDisk x := by
  have hany := congrArg (Option.any Kind.namesPath) hk
  rwa [Option.any_map, Option.any_map] at hany

theorem WellFormed.onDisk_eq (w : o.WellFormed) (hi : o.get? h = some i) :
    o.onDisk h = (if i.kind.namesPath then [h] else []) ++ i.children.flatMap o.onDisk := by
  unfold onDisk
  rw [w.family_eq hi, List.filter_cons, isOnDisk_eq hi, List.filter_flatMap]
  split <;> rfl

theorem WellFormed.nodup_onDisk (w : o.WellFormed) (hi : o.get? h = some i) :
    (o.onDisk h).Nodup := (w.nodup_family hi).filter _

theorem WellFormed.child_not_package (w : o.WellFormed) (hi : o.get? h = some i)
    (hc : c ∈ i.children) (hk : o.get? c = some k) : k.kind ≠ .package := by
  obtain ⟨k', hk', hp⟩ := w.child hi hc
  rw [hk] at hk'
  obtain rfl := Option.some.inj hk'
  intro hpk
  have hadmits := w.placed hk hp hi
  rw [hpk, Kind.admits_package] at hadmits
  cases hadmits

/-! ### The listing of an image -/

theorem WellFormed.listing_contributed (w : o.WellFormed) (a : o.Attached)
    (hi : o.get? h = some i) (hc : c ∈ i.children) (hk : o.get? c = some k)
    (hcontents : t.contents? = (o.record c).2)
    (hlist : t.listing (o.diskPath c) = (k.children.flatMap o.onDisk).map o.record) :
    Tree.listingAll (o.diskPath h) (o.contributed c t) = (o.onDisk c).map o.record := by
  obtain ⟨k', hk', hp⟩ := w.child hi hc
  rw [hk] at hk'
  obtain rfl := Option.some.inj hk'
  obtain ⟨l, hl⟩ := w.exists_line a hi
  have hpath := w.diskPath_child hl hk hp
  have hkind := Kind.isTransparent_or_namesPath (w.child_not_package hi hc hk)
  unfold contributed
  rw [hk, Option.elim_some, Workspace.contribution, w.onDisk_eq hk]
  unfold Item.pathPart at hpath
  cases hn : k.kind.namesPath with
  | true =>
      rw [hn] at hkind hpath
      simp only [↓reduceIte] at hpath
      have hrecord : o.record c = (o.diskPath h ++ [k.name], t.contents?) := by
        rw [hcontents, ← hpath]
        rfl
      rw [hpath] at hlist
      simp [hkind, Tree.listingAll, hlist, hrecord]
  | false =>
      rw [hn] at hkind hpath
      simp only [Bool.false_eq_true, ↓reduceIte, List.append_nil] at hpath
      rw [hkind, ← hpath]
      simp [← Tree.listing_eq, hlist]

theorem WellFormed.listing_parts (w : o.WellFormed) (a : o.Attached) (hi : o.get? h = some i)
    {cs : List Handle} {parts : List (List (String × FileTree))} (hcs : cs ⊆ i.children)
    (hlist : ∀ c ∈ cs, ∀ k t, o.get? c = some k → o.plainImage c = .ok t →
      t.contents? = (o.record c).2 ∧
        t.listing (o.diskPath c) = (k.children.flatMap o.onDisk).map o.record)
    (hm : (cs.mapM fun c => (o.plainImage c).map (o.contributed c)) = .ok parts) :
    Tree.listingAll (o.diskPath h) parts.flatten = (cs.flatMap o.onDisk).map o.record := by
  induction cs generalizing parts with
  | nil =>
      rw [← Except.ok.inj hm]
      rfl
  | cons c cs ih =>
      obtain ⟨es, parts, hes, hm', rfl⟩ := mapM_cons_eq_ok.mp hm
      obtain ⟨k, hk, -⟩ := w.child hi (hcs List.mem_cons_self)
      cases ht : o.plainImage c with
      | error e =>
          rw [ht] at hes
          cases hes
      | ok t =>
          rw [ht] at hes
          obtain ⟨hcontents, hl⟩ := hlist c List.mem_cons_self k t hk ht
          have hfirst := w.listing_contributed a hi (hcs List.mem_cons_self) hk hcontents hl
          have hrest := ih (fun d hd => hcs (List.mem_cons_of_mem _ hd))
            (fun d hd => hlist d (List.mem_cons_of_mem _ hd)) hm'
          rw [List.flatten_cons, Tree.listingAll_append, ← Except.ok.inj hes, hfirst, hrest,
            List.flatMap_cons, List.map_append]

theorem wellNamed_parts {cs : List Handle} {parts : List (List (String × FileTree))}
    (hw : ∀ c ∈ cs, ∀ t, o.plainImage c = .ok t → t.WellNamed)
    (hm : (cs.mapM fun c => (o.plainImage c).map (o.contributed c)) = .ok parts) :
    Tree.WellNamedAll parts.flatten := by
  induction cs generalizing parts with
  | nil =>
      rw [← Except.ok.inj hm]
      trivial
  | cons c cs ih =>
      obtain ⟨es, parts, hes, hm', rfl⟩ := mapM_cons_eq_ok.mp hm
      cases ht : o.plainImage c with
      | error e =>
          rw [ht] at hes
          cases hes
      | ok t =>
          rw [ht] at hes
          have wt := hw c List.mem_cons_self t ht
          rw [List.flatten_cons, Tree.wellNamedAll_append, ← Except.ok.inj hes]
          refine ⟨?_, ih (fun d hd => hw d (List.mem_cons_of_mem _ hd)) hm'⟩
          show Tree.WellNamedAll (o.contributed c t)
          unfold contributed Workspace.contribution
          cases o.get? c with
          | none => trivial
          | some k =>
              rw [Option.elim_some]
              split
              · cases t with
                | file l c => trivial
                | dir l es =>
                    rw [Tree.WellNamed] at wt
                    exact wt.2
              · exact ⟨wt, trivial⟩

/-- An image shows the folders and files below its item, in the order of the walk. -/
theorem WellFormed.listing_plainImage (w : o.WellFormed) (a : o.Attached)
    (hi : o.get? h = some i) (ht : o.plainImage h = .ok t) :
    t.WellNamed ∧ t.contents? = (o.record h).2 ∧
      t.listing (o.diskPath h) = (i.children.flatMap o.onDisk).map o.record := by
  refine w.child_induction (P := fun h => ∀ i t, o.get? h = some i → o.plainImage h = .ok t →
    t.WellNamed ∧ t.contents? = (o.record h).2 ∧
      t.listing (o.diskPath h) = (i.children.flatMap o.onDisk).map o.record) ?_ h i hi i t hi ht
  intro h i hi ih k t hk ht
  rw [hi] at hk
  obtain rfl := Option.some.inj hk
  unfold record
  rw [isFile_eq hi]
  by_cases hfile : i.kind = .file
  · rw [w.plainImage_file hi hfile, plainFile] at ht
    cases hd : o.data h with
    | none =>
        rw [hd] at ht
        cases ht
    | some c =>
        rw [hd] at ht
        obtain rfl := Except.ok.inj ht
        refine ⟨trivial, ?_, ?_⟩
        · simp [Tree.contents?, Kind.holdsData, hfile]
        · rw [w.children_file hi hfile]
          rfl
  · rw [w.plainImage_dir hi hfile] at ht
    cases hm : i.children.mapM fun c => (o.plainImage c).map (o.contributed c) with
    | error e =>
        rw [hm] at ht
        cases ht
    | ok parts =>
        rw [hm] at ht
        obtain ⟨hrep, rfl⟩ := gather_eq_ok_iff.mp ht
        refine ⟨?_, ?_, ?_⟩
        · rw [Tree.WellNamed]
          refine ⟨(Workspace.firstRepeat_eq_none hrep).1, wellNamed_parts (fun c hc t ht => ?_) hm⟩
          obtain ⟨k, hk, -⟩ := w.child hi hc
          exact (ih c hc k t hk ht).1
        · simp [Tree.contents?, Kind.holdsData, hfile]
        · rw [Tree.listing]
          exact w.listing_parts a hi (fun _ hc => hc) (fun c hc k t hk ht => (ih c hc k t hk ht).2) hm

/-! ### The image of the root -/

theorem WellFormed.mem_onDisk_root (w : o.WellFormed) (a : o.Attached) (hk : o.get? x = some k)
    (hp : k.kind.namesPath = true) : x ∈ o.onDisk Outline.root := by
  obtain ⟨r, hr, -⟩ := w.root
  refine List.mem_filter.mpr ⟨(w.mem_family_iff a hr).mpr (w.below_root a hk), ?_⟩
  rw [isOnDisk_eq hk, hp]

theorem WellFormed.diskPath_ne_nil (w : o.WellFormed) (a : o.Attached) (hk : o.get? x = some k)
    (hp : k.kind.namesPath = true) : o.diskPath x ≠ [] := by
  obtain ⟨p, j, hparent, hj, -⟩ := a hk (w.ne_root hk hp)
  obtain ⟨l, hl⟩ := w.exists_line a hj
  rw [w.diskPath_child hl hk hparent, Item.pathPart, if_pos hp]
  simp

/-- The image of the root shows all folders and files, in the order of the walk. -/
theorem WellFormed.listing_root (w : o.WellFormed) (a : o.Attached)
    (ht : o.plainImage Outline.root = .ok t) :
    t.WellNamed ∧ t.isDir = true ∧ t.listing [] = (o.onDisk Outline.root).map o.record := by
  obtain ⟨r, hr, hkind, -⟩ := w.root
  obtain ⟨hnamed, hcontents, hlist⟩ := w.listing_plainImage a hr ht
  rw [w.diskPath_root] at hlist
  rw [w.onDisk_eq hr, hlist, hkind]
  refine ⟨hnamed, ?_, rfl⟩
  rw [record, isFile_eq hr, hkind] at hcontents
  cases t with
  | file l c => cases hcontents
  | dir l es => rfl

/-- What stands at a path in the image of the root is the folder or file with that path. -/
theorem WellFormed.find?_root (w : o.WellFormed) (a : o.Attached) {t : SharedTree}
    (ht : o.plainImage Outline.root = .ok t.plain) {names : List String} (hn : names ≠ [])
    {c : Option Bytes} : (∃ u, t.find? names = some u ∧ u.contents? = c) ↔
      ∃ x ∈ o.onDisk Outline.root, o.record x = (names, c) := by
  obtain ⟨hnamed, -, hlist⟩ := w.listing_root a ht
  have hnamed' : t.WellNamed := (Tree.wellNamed_map_iff _ t).mp hnamed
  rw [← hnamed'.mem_listing_iff [] hn, List.nil_append, ← List.mem_map, ← hlist,
    Tree.plain, Tree.listing_map]

/-! ### Images that cannot be made -/

theorem WellFormed.data_of_plainImage (w : o.WellFormed) (hi : o.get? h = some i)
    (ht : o.plainImage h = .ok t) : ∀ f ∈ o.family h, o.isFile f = true → o.data f ≠ none := by
  refine w.child_induction (P := fun h => ∀ t, o.plainImage h = .ok t →
    ∀ f ∈ o.family h, o.isFile f = true → o.data f ≠ none) ?_ h i hi t ht
  intro h i hi ih t ht f hf hfile
  rw [w.family_eq hi, List.mem_cons, List.mem_flatMap] at hf
  by_cases hk : i.kind = .file
  · rw [w.children_file hi hk] at hf
    obtain rfl : f = h := by simpa using hf
    rw [w.plainImage_file hi hk, plainFile] at ht
    intro hd
    rw [hd] at ht
    cases ht
  · rw [w.plainImage_dir hi hk] at ht
    rcases hf with rfl | ⟨c, hc, hfc⟩
    · rw [isFile_eq hi] at hfile
      simp [Kind.holdsData, hk] at hfile
    · cases hm : i.children.mapM fun c => (o.plainImage c).map (o.contributed c) with
      | error e =>
          rw [hm] at ht
          cases ht
      | ok parts =>
          obtain ⟨es, hes⟩ := mapM_eq_ok_of_mem hm hc
          cases hp : o.plainImage c with
          | error e =>
              rw [hp] at hes
              cases hes
          | ok u => exact ih c hc u hp f hfc hfile

theorem WellFormed.exists_conflict (w : o.WellFormed) (a : o.Attached) (hi : o.get? h = some i)
    {parts : List (List (String × FileTree))} {name : String}
    (hm : (i.children.mapM fun c => (o.plainImage c).map (o.contributed c)) = .ok parts)
    (hrep : Workspace.firstRepeat [] (Entries.keys parts.flatten) = some name) :
    ∃ x ∈ o.onDisk h, ∃ y ∈ o.onDisk h, x ≠ y ∧ o.diskPath x = o.diskPath y ∧
      o.diskPath x = o.diskPath h ++ [name] := by
  have hsub : (i.children.flatMap o.onDisk).Sublist (o.onDisk h) := by
    rw [w.onDisk_eq hi]
    exact List.sublist_append_right _ _
  have hlist := w.listing_parts a hi (fun _ hc => hc) (fun c hc k t hk ht =>
    (w.listing_plainImage a hk ht).2) hm
  have hkeys := Tree.keys_sublist_listingAll (o.diskPath h) parts.flatten
  rw [hlist, List.map_map] at hkeys
  obtain ⟨-, hs | hd⟩ := Workspace.firstRepeat_eq_some hrep
  · cases hs
  · have htwo := ((List.duplicate_iff_sublist.mp hd).map (o.diskPath h ++ [·])).trans hkeys
    obtain ⟨l, hl, hlmap⟩ := List.sublist_map_iff.mp htwo
    obtain ⟨x, l₁, rfl, hx, hl₁⟩ := List.map_eq_cons_iff.mp hlmap.symm
    obtain ⟨y, l₂, rfl, hy, hl₂⟩ := List.map_eq_cons_iff.mp hl₁
    have hxy := (hl.trans hsub).nodup (w.nodup_onDisk hi)
    have hmem := (hl.trans hsub).subset
    refine ⟨x, hmem List.mem_cons_self, y, hmem (List.mem_cons_of_mem _ List.mem_cons_self), ?_,
      hx.trans hy.symm, hx⟩
    rintro rfl
    exact (List.nodup_cons.mp hxy).1 List.mem_cons_self

/-- Why the image of an item cannot be made, with the error that tells where: a file has no data, or two
items have one path.  These come to lie in one directory, that of an item above them. -/
inductive Fault (o : Outline) (h : Handle) : Failure → Prop
  | missing {f : Handle} : f ∈ o.onDisk h → o.isFile f = true → o.data f = none →
      Fault o h (.error (.missingData (.ofNames (o.diskPath f))))
  | conflict {x y d : Handle} {name : String} : x ∈ o.onDisk h → y ∈ o.onDisk h → x ≠ y →
      o.diskPath x = o.diskPath y → o.Below d x → o.Below d y →
      o.diskPath x = o.diskPath d ++ [name] → Fault o h (.error (.conflict (.ofNames (o.diskPath x))))

theorem Fault.mono {e : Failure} (f : o.Fault c e) (hsub : o.onDisk c ⊆ o.onDisk h) :
    o.Fault h e := by
  cases f with
  | missing hf hfile hd => exact .missing (hsub hf) hfile hd
  | conflict hx hy hne hpath hdx hdy hname => exact .conflict (hsub hx) (hsub hy) hne hpath hdx hdy hname

theorem WellFormed.fault_of_file {e : Failure} (w : o.WellFormed) (hi : o.get? h = some i)
    (hk : i.kind = .file) (he : o.plainFile h = .error e) : o.Fault h e := by
  unfold plainFile at he
  cases hd : o.data h with
  | some c =>
      rw [hd] at he
      cases he
  | none =>
      rw [hd] at he
      obtain rfl := Except.error.inj he
      refine .missing ?_ ?_ hd
      · rw [w.onDisk_eq hi, hk]
        exact List.mem_append_left _ List.mem_cons_self
      · rw [isFile_eq hi, hk]
        rfl

theorem WellFormed.fault_of_gather {parts : List (List (String × FileTree))} {e : Failure}
    (w : o.WellFormed) (a : o.Attached) (hi : o.get? h = some i)
    (hm : i.children.mapM (fun c => (o.plainImage c).map (o.contributed c)) = .ok parts)
    (he : o.gather h parts.flatten = .error e) : o.Fault h e := by
  cases hrep : Workspace.firstRepeat [] (Entries.keys parts.flatten) with
  | none =>
      rw [gather_eq_ok_iff.mpr ⟨hrep, rfl⟩] at he
      cases he
  | some name =>
      obtain ⟨x, hx, y, hy, hxy, hpath, hname⟩ := w.exists_conflict a hi hm hrep
      have hbelow : ∀ {z}, z ∈ o.onDisk h → o.Below h z := fun hz =>
        w.below_of_mem_family hi (List.mem_filter.mp hz).1
      rw [gather, hrep] at he
      obtain rfl := Except.error.inj he
      rw [← hname]
      exact .conflict hx hy hxy hpath (hbelow hx) (hbelow hy) hname

/-- An image cannot be made only for one of these reasons. -/
theorem WellFormed.plainImage_error {e : Failure} (w : o.WellFormed) (a : o.Attached)
    (hi : o.get? h = some i) (he : o.plainImage h = .error e) : o.Fault h e := by
  refine w.child_induction (P := fun h => o.plainImage h = .error e → o.Fault h e) ?_ h i hi he
  intro h i hi ih he
  by_cases hk : i.kind = .file
  · rw [w.plainImage_file hi hk] at he
    exact w.fault_of_file hi hk he
  · rw [w.plainImage_dir hi hk] at he
    cases hm : i.children.mapM fun c => (o.plainImage c).map (o.contributed c) with
    | ok parts =>
        rw [hm] at he
        exact w.fault_of_gather a hi hm he
    | error e' =>
        rw [hm] at he
        obtain ⟨c, hc, hce⟩ := mapM_eq_error hm
        obtain rfl := Except.error.inj he
        refine (ih c hc (map_eq_error.mp hce)).mono fun x hx => ?_
        rw [w.onDisk_eq hi]
        exact List.mem_append_right _ (List.mem_flatMap.mpr ⟨c, hc, hx⟩)

end Outline

end PackageOutline
