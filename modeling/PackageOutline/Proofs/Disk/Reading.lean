import PackageOutline.Disk.Read
import PackageOutline.Proofs.Disk.Places
import PackageOutline.Proofs.Entries
import PackageOutline.Proofs.Tree.Listing

/-! # Reading trees

A file of a tree that was read is on disk where its names lead, with the same contents, as long as the
names are valid (`contentsAt_of_readTree`). -/

namespace PackageOutline

theorem Traced.bind_eq_ok {ε α β : Type} {x : Traced ε α} {f : α → Traced ε β} {b : β} :
    (x >>= f).result = .ok b ↔ ∃ a, x.result = .ok a ∧ (f a).result = .ok b := by
  rw [result_bind]
  exact PackageOutline.bind_eq_ok

namespace Tree

mutual

theorem plain_number : ∀ (t : FileTree) (next : ObjectId), (t.number next).1.plain = t
  | .file () c, next => by simp [number, plain, map]
  | .dir () es, next => by
    have hes := mapAll_numberAll es (next + 1)
    simp only [number, plain, map, hes]

theorem mapAll_numberAll : ∀ (es : List (String × FileTree)) (next : ObjectId),
    mapAll (fun _ => ()) (numberAll next es).1 = es
  | [], next => rfl
  | (n, t) :: es, next => by
    have ht := plain_number t next
    have hes := mapAll_numberAll es (t.number next).2
    rw [plain] at ht
    simp only [numberAll, mapAll, ht, hes]

end

end Tree

namespace Disk

variable {d : Disk} {p root : Path} {place : List Bytes} {n : String} {ns : List String}
  {t : FileTree} {c : Bytes} {node : DiskNode} {readers : List (Bytes × (Path → Reading FileTree))}

/-! ### The entries of a directory -/

theorem mem_readNames {names : List String} {l : List (String × FileTree)}
    (h : (readNames p readers names).result = .ok l) (hm : (n, t) ∈ l) :
    (Utf8.encode n).length ≤ maxName ∧ ∃ read, Entries.get? (Utf8.encode n) readers = some read ∧
      (read (p.join (Utf8.encode n))).result = .ok t := by
  induction names generalizing l with
  | nil =>
      obtain rfl := Except.ok.inj h
      cases hm
  | cons m names ih =>
      rw [readNames] at h
      split at h
      · cases h
      · rename_i hlen
        split at h
        · cases h
        · rename_i read hread
          obtain ⟨u, hu, h⟩ := Traced.bind_eq_ok.mp h
          obtain ⟨us, hus, h⟩ := Traced.bind_eq_ok.mp h
          obtain rfl := Except.ok.inj h
          rcases List.mem_cons.mp hm with he | hm
          · obtain ⟨rfl, rfl⟩ := Prod.mk.inj he
            exact ⟨by omega, read, hread, hu⟩
          · exact ih hus hm

theorem keys_of_readNames {names : List String} {l : List (String × FileTree)}
    (h : (readNames p readers names).result = .ok l) : Entries.keys l = names := by
  induction names generalizing l with
  | nil =>
      obtain rfl := Except.ok.inj h
      rfl
  | cons m names ih =>
      rw [readNames] at h
      split at h
      · cases h
      · split at h
        · cases h
        · obtain ⟨u, -, h⟩ := Traced.bind_eq_ok.mp h
          obtain ⟨us, hus, h⟩ := Traced.bind_eq_ok.mp h
          obtain rfl := Except.ok.inj h
          rw [Entries.keys_cons, ih hus]

theorem keys_readersOf (es : List (Bytes × DiskNode)) :
    Entries.keys (readersOf es) = Entries.keys es := by
  induction es with
  | nil => rfl
  | cons e es ih =>
      obtain ⟨j, m⟩ := e
      rw [readersOf, Entries.keys_cons, Entries.keys_cons, ih]

theorem get?_readersOf (k : Bytes) (es : List (Bytes × DiskNode)) :
    Entries.get? k (readersOf es) = (Entries.get? k es).map readNode := by
  induction es with
  | nil => rfl
  | cons e es ih =>
      obtain ⟨j, m⟩ := e
      rw [readersOf, Entries.get?, Entries.get?, ih]
      split <;> rfl

theorem mem_place {names : List String} {m : String} : n ∈ Disk.place m names ↔ n = m ∨ n ∈ names := by
  induction names with
  | nil => simp [Disk.place]
  | cons k names ih =>
      rw [Disk.place]
      split
      · simp
      · simp [ih, or_left_comm]

theorem mem_sortNames {names : List String} : n ∈ sortNames names ↔ n ∈ names := by
  induction names with
  | nil => simp [sortNames]
  | cons m names ih =>
      rw [sortNames, List.foldr_cons, mem_place, List.mem_cons]
      exact or_congr_right ih

theorem result_reportIgnored (p : Path) (names : List String) :
    (reportIgnored p names).result = .ok () := by
  induction names with
  | nil => rfl
  | cons m names ih =>
      rw [reportIgnored]
      split
      · simpa [Except.bind] using ih
      · simpa [Except.bind] using ih

/-- The names of a directory that are read, in order. -/
def shownNames (es : List (Bytes × DiskNode)) : List String :=
  sortNames (((Entries.keys es).map Utf8.repair).filter (!isIgnored ·))

theorem mem_shownNames {es : List (Bytes × DiskNode)} :
    n ∈ shownNames es ↔ (∃ k ∈ Entries.keys es, Utf8.repair k = n) ∧ isIgnored n = false := by
  rw [shownNames, mem_sortNames, List.mem_filter, List.mem_map, Bool.not_eq_true']

theorem readNode_file_eq_ok :
    (readNode (.file c) p).result = .ok t ↔ checkPath p = .ok () ∧ t = .file () c := by
  rw [readNode, Traced.bind_eq_ok]
  constructor
  · rintro ⟨_, hcheck, h⟩
    exact ⟨mapError_eq_ok.mp hcheck, (Except.ok.inj h).symm⟩
  · rintro ⟨hcheck, rfl⟩
    exact ⟨(), mapError_eq_ok.mpr hcheck, rfl⟩

theorem readNode_dir_eq_ok {es : List (Bytes × DiskNode)} :
    (readNode (.dir es) p).result = .ok t ↔ checkPath p = .ok () ∧
      ∃ l, (readNames p (readersOf es) (shownNames es)).result = .ok l ∧
        t = .dir () (Entries.ofList l) := by
  rw [readNode, Traced.bind_eq_ok, readDir, keys_readersOf]
  constructor
  · rintro ⟨_, hcheck, h⟩
    obtain ⟨_, -, h⟩ := Traced.bind_eq_ok.mp h
    obtain ⟨l, hl, h⟩ := Traced.bind_eq_ok.mp h
    exact ⟨mapError_eq_ok.mp hcheck, l, hl, (Except.ok.inj h).symm⟩
  · rintro ⟨hcheck, l, hl, rfl⟩
    exact ⟨(), mapError_eq_ok.mpr hcheck,
      Traced.bind_eq_ok.mpr ⟨(), result_reportIgnored _ _, Traced.bind_eq_ok.mpr ⟨l, hl, rfl⟩⟩⟩

theorem readNode_entry (h : (readNode node p).result = .ok t) {u : FileTree}
    (hu : t.entry? n = some u) : ∃ es m, node = .dir es ∧ isIgnored n = false ∧
      (Utf8.encode n).length ≤ maxName ∧ Entries.get? (Utf8.encode n) es = some m ∧
        (readNode m (p.join (Utf8.encode n))).result = .ok u := by
  cases node with
  | file b =>
      obtain ⟨-, rfl⟩ := readNode_file_eq_ok.mp h
      cases hu
  | dir es =>
      obtain ⟨-, l, hl, rfl⟩ := readNode_dir_eq_ok.mp h
      have hmem := Entries.mem_ofList (Entries.mem_of_get? hu)
      obtain ⟨hlen, read, hread, hresult⟩ := mem_readNames hl hmem
      have hshown : n ∈ shownNames es := keys_of_readNames hl ▸ List.mem_map_of_mem hmem
      rw [get?_readersOf] at hread
      obtain ⟨m, hm, rfl⟩ := Option.map_eq_some_iff.mp hread
      exact ⟨es, m, rfl, (mem_shownNames.mp hshown).2, hlen, hm, hresult⟩

theorem checkPath_of_readNode (h : (readNode node p).result = .ok t) : checkPath p = .ok () := by
  cases node with
  | file c => exact (readNode_file_eq_ok.mp h).1
  | dir es => exact (readNode_dir_eq_ok.mp h).1

/-! ### Steps into directories -/

theorem walk_stem {es : List (Bytes × DiskNode)} (hr : d.resolve p = .ok place)
    (hdir : d.top.find? place = some (.dir es)) : d.walk [] p.stem = .ok place := by
  obtain ⟨_, hcheck, hw⟩ := bind_eq_ok.mp hr
  have hne : p.bytes ≠ [] := by
    intro hempty
    simp [checkPath, hempty] at hcheck
  unfold Path.stem
  rw [if_neg hne]
  split
  · rename_i hslash
    obtain ⟨bs, hbs⟩ := List.getLast?_eq_some_iff.mp hslash
    have hpieces : p.pieces = p.pieces.dropLast ++ [[]] := by
      rw [Path.pieces, hbs, List.splitOn_append_cons_self]
      simp
    rw [hpieces, walk_append] at hw
    obtain ⟨place', hfirst, hlast⟩ := bind_eq_ok.mp hw
    have hplace : place' = place := by
      rw [walk] at hlast
      obtain ⟨place'', hstep, hend⟩ := bind_eq_ok.mp hlast
      obtain rfl := Except.ok.inj hend
      obtain ⟨-, -, ⟨-, h⟩ | ⟨h, -⟩ | ⟨h, -⟩⟩ := step_eq_ok.mp hstep
      · exact h.symm
      · cases h
      · cases h
    rw [hfirst, hplace]
  · exact hw

theorem resolve_join {es : List (Bytes × DiskNode)} {m : DiskNode} (hr : d.resolve p = .ok place)
    (hdir : d.top.find? place = some (.dir es)) (hn : Identifier.isValid n = true)
    (hlen : (Utf8.encode n).length ≤ maxName) (hm : Entries.get? (Utf8.encode n) es = some m)
    (hcheck : checkPath (p.join (Utf8.encode n)) = .ok ()) :
    d.resolve (p.join (Utf8.encode n)) = .ok (place ++ [Utf8.encode n]) := by
  obtain ⟨hname, hslash⟩ := Path.piece_of_isValid hn
  unfold resolve
  refine bind_eq_ok.mpr ⟨(), hcheck, ?_⟩
  rw [Path.pieces_join p hslash, walk_append, walk_stem hr hdir]
  show d.walk place [Utf8.encode n] = _
  rw [walk]
  refine bind_eq_ok.mpr ⟨_, ?_, rfl⟩
  exact (step_name hname).mpr ⟨es, hdir, hlen, Option.isSome_iff_exists.mpr ⟨m, hm⟩, rfl⟩

/-- A file of a tree that was read at the place of a path. -/
theorem contentsAt_of_readNode (hnames : Path.Names ns) (hr : d.resolve p = .ok place)
    (hnode : d.top.find? place = some node) (h : (readNode node p).result = .ok t)
    (hc : (t.at? ns).bind Tree.contents? = some c) : d.contentsAt (p.below ns) = .ok c := by
  induction ns generalizing p place node t with
  | nil =>
      refine contentsAt_eq_ok.mpr ⟨place, hr, ?_⟩
      rw [hnode]
      cases node with
      | file b =>
          obtain ⟨-, rfl⟩ := readNode_file_eq_ok.mp h
          rw [Option.some.inj hc]
      | dir es =>
          obtain ⟨-, l, -, rfl⟩ := readNode_dir_eq_ok.mp h
          cases hc
  | cons n ns ih =>
      obtain ⟨v, hv, hvc⟩ := Option.bind_eq_some_iff.mp hc
      obtain ⟨u, hu, hv⟩ := Option.bind_eq_some_iff.mp hv
      obtain ⟨es, m, rfl, -, hlen, hm, hread⟩ := readNode_entry h hu
      have hr' := resolve_join hr hnode hnames.head hlen hm (checkPath_of_readNode hread)
      have hnode' : d.top.find? (place ++ [Utf8.encode n]) = some m := by
        rw [DiskNode.find?_concat hnode, hm]
      exact ih hnames.tail hr' hnode' hread (by rw [hv]; exact hvc)

theorem readTree_eq_ok : (readTree d root).result = .ok t ↔
    ∃ node, d.stat root = .ok node ∧ (readNode node root).result = .ok t := by
  rw [readTree, Traced.bind_eq_ok]
  simp only [Traced.result_ofExcept, mapError_eq_ok]

/-- The files of a tree that was read are on disk. -/
theorem contentsAt_of_readTree (h : (readTree d root).result = .ok t) (hnames : Path.Names ns)
    (hc : (t.at? ns).bind Tree.contents? = some c) : d.contentsAt (root.below ns) = .ok c := by
  obtain ⟨node, hstat, hread⟩ := readTree_eq_ok.mp h
  obtain ⟨place, hplace, hnode⟩ := stat_eq_ok.mp hstat
  exact contentsAt_of_readNode hnames hplace hnode hread hc

end Disk

end PackageOutline
