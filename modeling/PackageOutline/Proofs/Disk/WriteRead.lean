import PackageOutline.Proofs.Disk.Tidy
import PackageOutline.Proofs.Disk.Vacant

/-! # Writing and then reading

What reading gives is tidy (`tidy_of_readNode`), and so it is given by what is seen on disk.  After a
directory was written to a vacant path, what is seen there is that directory and nothing else
(`Vacant.exists_of_find?`, `Vacant.view_of_written`), so reading gives it back tidied
(`Vacant.read_written`); and if it had been read, as it is. -/

namespace PackageOutline

namespace Disk

variable {α β : Type} {d d' : Disk} {p : Path} {n : String} {names ns : List String}
  {place : List Bytes} {node : DiskNode} {es : List (Bytes × DiskNode)} {t : FileTree} {W : Tree α}
  {s s' : Log} {summary : Summary} {isSame : Tree β → Tree α → Bool}

/-! ### What is read is tidy -/

theorem pairwise_place (h : names.Pairwise (· ≤ ·)) : (Disk.place n names).Pairwise (· ≤ ·) := by
  induction names with
  | nil => exact List.pairwise_singleton _ _
  | cons m names ih =>
      obtain ⟨hm, hnames⟩ := List.pairwise_cons.mp h
      rw [Disk.place]
      split
      · rename_i hnm
        refine List.pairwise_cons.mpr ⟨?_, h⟩
        exact List.forall_mem_cons.mpr ⟨hnm, fun k hk => le_trans hnm (hm k hk)⟩
      · rename_i hnm
        refine List.pairwise_cons.mpr ⟨fun k hk => ?_, ih hnames⟩
        rcases mem_place.mp hk with rfl | hk
        · exact le_of_not_ge hnm
        · exact hm k hk

theorem pairwise_sortNames (names : List String) : (sortNames names).Pairwise (· ≤ ·) := by
  induction names with
  | nil => exact List.Pairwise.nil
  | cons n names ih => exact pairwise_place ih

mutual

/-- A tree that was read is tidy. -/
theorem tidy_of_readNode : ∀ (node : DiskNode) {p : Path} {t : FileTree},
    (readNode node p).result = .ok t → t.Tidy
  | .file c, p, t, h => by
    obtain ⟨-, rfl⟩ := readNode_file_eq_ok.mp h
    rw [Tree.Tidy]
    trivial
  | .dir es, p, t, h => by
    obtain ⟨-, l, hl, rfl⟩ := readNode_dir_eq_ok.mp h
    have hsorted : (Entries.keys l).Pairwise (· ≤ ·) :=
      keys_of_readNames hl ▸ pairwise_sortNames _
    rw [Tree.Tidy, Tree.tidyAll_iff, Entries.ofList_eq]
    refine ⟨Tree.ordered_of_le ?_ (Entries.nodup_keys_lastOnly l), fun e he => ?_⟩
    · exact hsorted.sublist ((Entries.lastOnly_sublist l).map Prod.fst)
    · obtain ⟨-, read, hread, hresult⟩ := mem_readNames hl ((Entries.lastOnly_sublist l).subset he)
      rw [get?_readersOf] at hread
      obtain ⟨m, hm, rfl⟩ := Option.map_eq_some_iff.mp hread
      exact tidy_of_readEntries es _ (Entries.mem_of_get? hm) hresult

theorem tidy_of_readEntries : ∀ (es : List (Bytes × DiskNode)), ∀ e ∈ es, ∀ {p : Path} {t : FileTree},
    (readNode e.2 p).result = .ok t → t.Tidy
  | [], _, he, _, _, _ => by cases he
  | (k, m) :: es, e, he, p, t, h => by
    rcases List.mem_cons.mp he with rfl | he
    · exact tidy_of_readNode m h
    · exact tidy_of_readEntries es e he h

end

/-- Whether the names in a node that are text are components of paths, as all names on a disk are. -/
def Nameable (node : DiskNode) : Prop :=
  ∀ ns : List String, node.find? (ns.map Utf8.encode) ≠ none → Path.Names ns

theorem storable_of_readNode (h : (readNode node p).result = .ok W.plain) (hnames : Nameable node) :
    W.Storable := by
  have w : W.WellNamed :=
    (Tree.wellNamed_map_iff (fun _ => ()) W).mp (Tree.Tidy.wellNamed _ (tidy_of_readNode node h))
  refine Tree.storable_of_listing [] W w fun e he => ?_
  obtain ⟨n, ns, -, hpath⟩ := Tree.path_of_mem_listing [] W e he
  have hmem : ([] ++ n :: ns, e.2) ∈ W.listing [] := hpath ▸ he
  obtain ⟨u, hu, hc⟩ := (w.mem_listing_iff [] (List.cons_ne_nil n ns)).mp hmem
  rw [Tree.find?_eq_at? (List.cons_ne_nil n ns)] at hu
  have hshape : W.plain.shape (n :: ns) = some e.2 := by
    rw [Tree.shape_plain, Tree.shape, hu, Option.map_some, hc]
  rw [hpath]
  refine hnames _ fun hnone => ?_
  have hview := ((shape_of_readNode h).mp hshape).2
  rw [List.nil_append] at hnone
  rw [hnone] at hview
  exact View.ofContents_ne_nothing _ hview.symm

theorem tidied_of_readNode (h : (readNode node p).result = .ok W.plain) : W.tidied = W.plain := by
  have htidy := tidy_of_readNode node h
  have w : W.WellNamed := (Tree.wellNamed_map_iff (fun _ => ()) W).mp (Tree.Tidy.wellNamed _ htidy)
  refine Tree.eq_of_tidy W.tidied W.plain (Tree.tidy_tidied W w) htidy fun ns => ?_
  refine Option.ext fun c => ?_
  rw [Tree.shape_tidied w, ← Tree.shape_plain W, and_iff_right_iff_imp]
  exact fun hshape => ((shape_of_readNode h).mp hshape).1

/-! ### What is seen after writing -/

mutual

theorem tells_none (isSame : Tree β → Tree α → Bool) : ∀ t : Tree α, tells isSame none t = true
  | .file _ _ => by rw [tells]
  | .dir _ es => by
    rw [tells, tellsAll_none isSame es]
    rfl

theorem tellsAll_none (isSame : Tree β → Tree α → Bool) : ∀ es : List (String × Tree α),
    tellsAll isSame none es = true
  | [] => by rw [tellsAll]
  | (_, t) :: es => by
    rw [tellsAll, tellsAll_none isSame es, Bool.and_true]
    exact tells_none isSame t

end

theorem view_of_stands {u : Tree α} (hne : p.bytes ≠ []) (h : d.stands p u) :
    d.view p.place = .ofContents u.contents? := by
  cases u with
  | file l c => exact view_of_contentsAt h
  | dir l es =>
      obtain ⟨-, es', hes⟩ := resolve_of_isDir (h.resolve_left hne)
      exact DiskNode.view_eq_directory_iff.mpr ⟨es', hes⟩

theorem resolve_of_stands {u : Tree α} (hne : p.bytes ≠ []) (h : d.stands p u) :
    d.resolve p = .ok p.place := by
  cases u with
  | file l c =>
      obtain ⟨place, hr, -⟩ := contentsAt_eq_ok.mp h
      exact resolve_eq_place hr ▸ hr
  | dir l es => exact (resolve_of_isDir (h.resolve_left hne)).1

namespace Vacant

variable (v : Vacant d p) (st : W.Storable) (a : Altered (Written W p) (Opened W p) d d')
  (h : Holds d' p W)

include v st

omit st in
theorem bytes_below (hns : Path.Names ns) : (p.below ns).bytes ≠ [] := by
  intro hempty
  have hprefix := p.bytes_below hns
  rw [hempty, List.prefix_nil] at hprefix
  exact v.nonempty hprefix

include a

theorem exists_of_view (hsome : d'.view (p.place ++ place) ≠ .nothing) :
    ∃ ns u, W.at? ns = some u ∧ place = ns.map Utf8.encode := by
  have hbelow : ∀ {ns u}, W.at? ns = some u → p.place ++ place = (p.below ns).place →
      place = ns.map Utf8.encode := by
    intro ns u hu hplace
    rw [p.place_below (st.names hu)] at hplace
    exact List.append_cancel_left hplace
  rcases a (p.place ++ place) with hsame | ⟨c, ⟨ns, hc, hplace⟩, -⟩ | ⟨hopened, -⟩
  · exact absurd (hsame.trans (v.below place)) hsome
  · obtain ⟨u, hu, -⟩ := Option.bind_eq_some_iff.mp hc
    exact ⟨ns, u, hu, hbelow hu hplace⟩
  · rcases hopened with ⟨-, hway⟩ | ⟨ns, u, hu, -, hplace⟩
    · have htop := v.straight _ hway (List.prefix_append p.place place)
      exact ⟨[], W, rfl, by simpa using htop⟩
    · exact ⟨ns, u, hu, hbelow hu hplace⟩

/-- What is found where a tree was written to a vacant path is what the tree has. -/
theorem exists_of_find? (hstat : d'.stat p = .ok node) (hfind : node.find? place ≠ none) :
    ∃ ns u, W.at? ns = some u ∧ place = ns.map Utf8.encode := by
  refine v.exists_of_view st a fun hnothing => hfind ?_
  rwa [view_of_stat hstat, DiskNode.view_eq_nothing_iff] at hnothing

theorem nameable_written (hstat : d'.stat p = .ok node) : Nameable node := by
  intro ns hfind
  obtain ⟨ns', u, hu, hplace⟩ := v.exists_of_find? st a hstat hfind
  obtain rfl := Utf8.map_encode_injective hplace
  exact st.names hu

include h

/-- Below a vacant path that a tree was written to, the tree is seen. -/
theorem view_of_written (ns : List String) (c : Option Bytes) :
    d'.view (p.place ++ ns.map Utf8.encode) = .ofContents c ↔ W.shape ns = some c := by
  have there : ∀ {u}, W.at? ns = some u →
      d'.view (p.place ++ ns.map Utf8.encode) = .ofContents u.contents? := by
    intro u hu
    rw [← p.place_below (st.names hu)]
    exact view_of_stands (v.bytes_below (st.names hu)) (h ns u hu)
  constructor
  · intro hview
    have hsome := View.ofContents_ne_nothing c
    rw [← hview] at hsome
    obtain ⟨ns', u, hu, hplace⟩ := v.exists_of_view st a hsome
    obtain rfl := Utf8.map_encode_injective hplace
    rw [there hu] at hview
    rw [Tree.shape, hu, Option.map_some, View.ofContents_injective hview]
  · intro hshape
    obtain ⟨u, hu, rfl⟩ := Option.map_eq_some_iff.mp hshape
    exact there hu

/-- A tree that was written to a vacant path can be read. -/
theorem readNode_written (hstat : d'.stat p = .ok node) :
    ∃ t, (readNode node p).result = .ok t := by
  refine readNode_isOk node (fun place hfind => ?_) fun ns _ hfind => ?_
  · obtain ⟨ns, -, -, hplace⟩ := v.exists_of_find? st a hstat hfind
    exact ⟨ns, hplace⟩
  · obtain ⟨ns', u, hu, hplace⟩ := v.exists_of_find? st a hstat hfind
    obtain rfl := Utf8.map_encode_injective hplace
    have hns := st.names hu
    exact fits_of_resolve hns (resolve_of_stands (v.bytes_below hns) (h ns u hu))

end Vacant

/-- What is read after a directory was written to a vacant path. -/
theorem Vacant.read_written (v : Vacant s.disk p) (st : W.Storable)
    (hx : exec (writeWith isSame (none : Option (Tree β)) W p) s = (.ok summary, s')) :
    (readTree s'.disk p).result = .ok W.tidied := by
  have a := exec_writeWith_altered isSame W st hx
  have h := exec_writeWith_holds isSame W st (fun _ hu => by cases hu) (tells_none isSame W) hx
  have hr : s'.disk.resolve p = .ok p.place := resolve_of_stands v.nonempty (h [] W rfl)
  obtain ⟨node, hnode⟩ : ∃ node, s'.disk.top.find? p.place = some node := by
    refine Option.ne_none_iff_exists'.mp fun hnone => ?_
    have hview : s'.disk.view p.place = _ := view_of_stands v.nonempty (h [] W rfl)
    rw [view, hnone] at hview
    exact View.ofContents_ne_nothing _ hview.symm
  have hstat : s'.disk.stat p = .ok node := stat_eq_ok.mpr ⟨p.place, hr, hnode⟩
  obtain ⟨t, ht⟩ := v.readNode_written st a h hstat
  have w := Tree.Storable.wellNamed W st
  have hsame : ∀ ns, t.shape ns = W.tidied.shape ns := by
    intro ns
    refine Option.ext fun c => ?_
    rw [shape_of_readNode ht, Tree.shape_tidied w, ← view_of_stat hstat,
      v.view_of_written st a h]
    rfl
  have htidy := Tree.eq_of_tidy t W.tidied (tidy_of_readNode node ht) (Tree.tidy_tidied W w) hsame
  exact readTree_eq_ok.mpr ⟨node, hstat, htidy ▸ ht⟩

/-- A path that does not exist, with every step up in it behind parts that do, was vacant when a tree
could be written there. -/
theorem vacant_of_written (st : W.Storable)
    (hx : exec (writeWith isSame (none : Option (Tree β)) W p) s = (.ok summary, s'))
    (hne : p.bytes ≠ []) (hmissing : ∀ node, s.disk.stat p ≠ .ok node)
    (hup : ∀ ps, ps ++ [Path.dotDot] <+: p.pieces → ∃ place, s.disk.walk [] ps = .ok place) :
    Vacant s.disk p := by
  have a := exec_writeWith_altered isSame W st hx
  have h := exec_writeWith_holds isSame W st (fun _ hu => by cases hu) (tells_none isSame W) hx
  exact vacant_of_missing hne hmissing hup a.toExtends (resolve_of_stands hne (h [] W rfl))

/-- After a tree was written to a vacant path, and the writing ended well, reading the path gives the
tree with the entries of every directory in the order of the bytes of their names, but those of version
control.  If the tree was itself read from a disk, that is the same tree.  A path was vacant if it did
not exist and every step up in it left what was there. -/
theorem readTree_of_written
    (hx : exec (writeTree W p (none : Option (Tree β))) s = (.ok summary, s')) :
    (Vacant s.disk p → (W.Storable → (readTree s'.disk p).result = .ok W.tidied) ∧
      ∀ (d : Disk) (q : Path) (node : DiskNode), d.stat q = .ok node → Nameable node →
        (readTree d q).result = .ok W.plain → (readTree s'.disk p).result = .ok W.plain) ∧
    (W.Storable → p.bytes ≠ [] → (∀ node, s.disk.stat p ≠ .ok node) →
      (∀ ps, ps ++ [Path.dotDot] <+: p.pieces → ∃ place, s.disk.walk [] ps = .ok place) →
      Vacant s.disk p) := by
  refine ⟨fun v => ⟨fun st => v.read_written st hx, fun d q node hstat hnames hread => ?_⟩,
    fun st hne hmissing hup => vacant_of_written st hx hne hmissing hup⟩
  obtain ⟨node', hstat', hread⟩ := readTree_eq_ok.mp hread
  rw [hstat] at hstat'
  obtain rfl := Except.ok.inj hstat'
  rw [v.read_written (storable_of_readNode hread hnames) hx, tidied_of_readNode hread]

/-- A directory that is out of order and has entries of version control is read in order and without
them, and when that is written elsewhere, it is read as it is. -/
theorem readTree_of_written_twice :
    let W : FileTree := .dir () [("b", .dir () [(".git", .file () [1]), ("c", .file () [])]),
      ("_darcs", .dir () []), ("a", .dir () [])]
    let t : FileTree := .dir () [("a", .dir () []), ("b", .dir () [("c", .file () [])])]
    ∃ s₁ s₂, exec (writeTree W (.ofString "p/q") (none : Option FileTree)) { disk := {} } =
        (.ok { written := 2, unchanged := 0 }, s₁) ∧
      (readTree s₁.disk (.ofString "p/q")).result = .ok t ∧
      exec (writeTree t (.ofString "r") (none : Option FileTree)) { disk := {} } =
        (.ok { written := 1, unchanged := 0 }, s₂) ∧
      (readTree s₂.disk (.ofString "r")).result = .ok t := by
  intro W t
  have st : W.Storable := by
    simp only [W, Tree.Storable, Tree.StorableAll]
    decide
  have st' : t.Storable := by
    simp only [t, Tree.Storable, Tree.StorableAll]
    decide
  have missing : ∀ {q node}, (({} : Disk).stat q).toOption.isSome = false →
      ({} : Disk).stat q ≠ .ok node := by
    intro q node hnone hsome
    rw [hsome] at hnone
    cases hnone
  have forward : ∀ {q ps}, Path.dotDot ∉ (Path.ofString q).pieces →
      ps ++ [Path.dotDot] <+: (Path.ofString q).pieces → ∃ place, ({} : Disk).walk [] ps = .ok place :=
    fun hno hps => absurd (hps.subset (List.mem_append_right _ (List.mem_singleton_self _))) hno
  have ends : ∀ {x : Except DiskError Summary × Log} {r}, x.1.toOption = some r →
      ∃ s, x = (.ok r, s) := fun h => ⟨_, Prod.ext (toOption_eq_some.mp h) rfl⟩
  obtain ⟨s₁, hx₁⟩ : ∃ s₁, exec (writeTree W (.ofString "p/q") (none : Option FileTree))
      { disk := {} } = (.ok { written := 2, unchanged := 0 }, s₁) := ends (by decide +kernel)
  obtain ⟨s₂, hx₂⟩ : ∃ s₂, exec (writeTree t (.ofString "r") (none : Option FileTree))
      { disk := {} } = (.ok { written := 1, unchanged := 0 }, s₂) := ends (by decide +kernel)
  have v₁ := (readTree_of_written hx₁).2 st (by decide) (fun _ => missing (by decide +kernel))
    (fun _ => forward (by decide +kernel))
  have v₂ := (readTree_of_written hx₂).2 st' (by decide) (fun _ => missing (by decide +kernel))
    (fun _ => forward (by decide +kernel))
  have hread : (readTree s₁.disk (.ofString "p/q")).result = .ok t :=
    ((readTree_of_written hx₁).1 v₁).1 st
  obtain ⟨node, hstat, -⟩ := readTree_eq_ok.mp hread
  have hnames := v₁.nameable_written st (exec_writeWith_altered _ W st hx₁) hstat
  have hread₂ := ((readTree_of_written hx₂).1 v₂).2 _ _ node hstat hnames hread
  exact ⟨s₁, s₂, hx₁, hread, hx₂, hread₂⟩

/-- Paths that do not exist, but are not vacant: after a directory was written there, the empty path does
still not exist, and what was made on the way, or stands where the path comes back to, is read too. -/
theorem readTree_of_written_astray :
    let W : FileTree := .dir () [("a", .file () [49])]
    let d : Disk := { top := .dir [([112], .dir [([98], .file [50])])] }
    W.Storable ∧ ∀ c ∈ [(({} : Disk), Path.ofString ""), ({}, .ofString "p/x/.."),
        (d, .ofString "x/../p")],
      (∀ node, c.1.stat c.2 ≠ .ok node) ∧
      ∃ s', exec (writeTree W c.2 (none : Option FileTree)) { disk := c.1 } =
          (.ok { written := 1, unchanged := 0 }, s') ∧
        (readTree s'.disk c.2).result ≠ .ok W.tidied := by
  intro W d
  have st : W.Storable := by
    simp only [W, Tree.Storable, Tree.StorableAll]
    decide
  have hruns : ∀ c ∈ [(({} : Disk), Path.ofString ""), ({}, .ofString "p/x/.."),
      (d, .ofString "x/../p")],
      let x := exec (writeTree W c.2 (none : Option FileTree)) { disk := c.1 }
      (c.1.stat c.2).toOption.isSome = false ∧
        x.1.toOption = some { written := 1, unchanged := 0 } ∧
        (readTree x.2.disk c.2).result.toOption.any (·.same W.tidied) = false := by decide +kernel
  refine ⟨st, fun c hc => ?_⟩
  obtain ⟨hmissing, hok, hother⟩ := hruns c hc
  refine ⟨fun node hnode => ?_, _, Prod.ext (toOption_eq_some.mp hok) rfl, fun hread => ?_⟩
  · rw [hnode] at hmissing
    cases hmissing
  · rw [hread] at hother
    exact Bool.false_ne_true (hother.symm.trans ((Tree.same_iff W.tidied W.tidied).mpr rfl))

end Disk

end PackageOutline
