import PackageOutline.Proofs.Disk.Exact
import PackageOutline.Proofs.Text.Utf8

/-! # What reading finds

A tree that is read has the files that stand on disk, but those of version control
(`contents_of_readNode`).  When all names are text, reading succeeds exactly if the system takes the
paths of all that is shown (`Passable`). -/

namespace PackageOutline

namespace Path

variable {p : Path} {names : List String}

theorem below_append (p : Path) (ns ms : List String) :
    p.below (ns ++ ms) = (p.below ns).below ms := List.foldl_append

theorem bytes_below (p : Path) (h : Names names) : p.bytes <+: (p.below names).bytes := by
  induction names using List.reverseRecOn with
  | nil => exact List.prefix_rfl
  | append_singleton names n ih =>
      rw [below_concat]
      refine (ih fun m hm => h m (by simp [hm])).trans ?_
      have hslash := (piece_of_isValid (h n (by simp))).2
      unfold join
      split
      · rename_i hhead
        rw [beq_iff_eq] at hhead
        exact absurd (List.mem_of_head? hhead) hslash
      · split <;> exact List.prefix_append ..

end Path

namespace Disk

variable {α β : Type} {d d' d'' : Disk} {p root : Path} {n : String} {ns ms : List String}
  {node m : DiskNode} {es : List (Bytes × DiskNode)} {t : FileTree} {c : Bytes}

/-- Whether no name is that of version control metadata. -/
def Shown (ns : List String) : Prop := ∀ n ∈ ns, isIgnored n = false

theorem shown_nil : Shown [] := fun _ h => by cases h

theorem shown_cons : Shown (n :: ns) ↔ isIgnored n = false ∧ Shown ns := List.forall_mem_cons

/-- Whether the system takes the path through some names below a path. -/
def Fits (p : Path) (ns : List String) : Prop :=
  checkPath (p.below ns) = .ok () ∧ ∀ n ∈ ns, (Utf8.encode n).length ≤ maxName

/-- Whether the system takes the paths of all that is shown of a node at a path. -/
def Passable (node : DiskNode) (p : Path) : Prop :=
  ∀ ns, Shown ns → node.find? (ns.map Utf8.encode) ≠ none → Fits p ns

/-- Whether all names in a node, at any depth, are text. -/
def Textual (node : DiskNode) : Prop :=
  ∀ place, node.find? place ≠ none → ∃ ns : List String, place = ns.map Utf8.encode

theorem textual_file (c : Bytes) : Textual (.file c) := by
  intro place hfind
  cases place with
  | nil => exact ⟨[], rfl⟩
  | cons k place => exact absurd rfl hfind

theorem textual_dir (h : ∀ e ∈ es, (∃ n, e.1 = Utf8.encode n) ∧ Textual e.2) :
    Textual (.dir es) := by
  intro place hfind
  cases place with
  | nil => exact ⟨[], rfl⟩
  | cons k place =>
      obtain ⟨m, hm⟩ : ∃ m, Entries.get? k es = some m := by
        refine Option.ne_none_iff_exists'.mp fun hnone => hfind ?_
        rw [DiskNode.find?, hnone]
        rfl
      rw [DiskNode.find?, hm, Option.bind_some] at hfind
      obtain ⟨⟨n, hn⟩, htext⟩ := h _ (Entries.mem_of_get? hm)
      obtain ⟨ns, rfl⟩ := htext place hfind
      exact ⟨n :: ns, by rw [List.map_cons, ← hn]⟩

/-! ### What is found -/

theorem readNode_shown (h : (readNode (.dir es) p).result = .ok t) (hn : isIgnored n = false)
    (hm : Entries.get? (Utf8.encode n) es = some m) : ∃ u, t.entry? n = some u ∧
      (Utf8.encode n).length ≤ maxName ∧ (readNode m (p.join (Utf8.encode n))).result = .ok u := by
  obtain ⟨-, l, hl, rfl⟩ := readNode_dir_eq_ok.mp h
  have hshown : n ∈ shownNames es :=
    mem_shownNames.mpr ⟨⟨_, Entries.mem_keys_of_get? hm, Utf8.repair_encode n⟩, hn⟩
  rw [← keys_of_readNames hl] at hshown
  obtain ⟨u, hu⟩ := Entries.exists_of_mem_keys (Entries.mem_keys_ofList hshown)
  obtain ⟨es', m', hes, -, hlen, hm', hread⟩ := readNode_entry h (u := u) hu
  obtain rfl := DiskNode.dir.inj hes
  rw [hm] at hm'
  obtain rfl := Option.some.inj hm'
  exact ⟨u, hu, hlen, hread⟩

theorem shape_of_readNode {c : Option Bytes} (h : (readNode node p).result = .ok t) :
    t.shape ns = some c ↔
      Shown ns ∧ DiskNode.view (node.find? (ns.map Utf8.encode)) = .ofContents c := by
  induction ns generalizing node p t with
  | nil =>
      rw [List.map_nil, DiskNode.find?, and_iff_right shown_nil, Tree.shape, Tree.at?,
        Option.map_some, Option.some.injEq]
      cases node with
      | file b =>
          obtain ⟨-, rfl⟩ := readNode_file_eq_ok.mp h
          exact ⟨fun hc => hc ▸ rfl, fun hv => View.ofContents_injective hv⟩
      | dir es =>
          obtain ⟨-, l, -, rfl⟩ := readNode_dir_eq_ok.mp h
          exact ⟨fun hc => hc ▸ rfl, fun hv => View.ofContents_injective hv⟩
  | cons n ns ih =>
      rw [shown_cons, Tree.shape_cons]
      constructor
      · intro hc
        obtain ⟨u, hu, hc⟩ := Option.bind_eq_some_iff.mp hc
        obtain ⟨es, m, rfl, hshown, -, hm, hread⟩ := readNode_entry h hu
        obtain ⟨hrest, hview⟩ := (ih hread).mp hc
        refine ⟨⟨hshown, hrest⟩, ?_⟩
        rw [List.map_cons, DiskNode.find?, hm]
        exact hview
      · rintro ⟨⟨hshown, hrest⟩, hview⟩
        cases node with
        | file b => cases c <;> cases hview
        | dir es =>
            rw [List.map_cons, DiskNode.find?] at hview
            cases hm : Entries.get? (Utf8.encode n) es with
            | none =>
                rw [hm] at hview
                cases c <;> cases hview
            | some m =>
                rw [hm] at hview
                obtain ⟨u, hu, -, hread⟩ := readNode_shown h hshown hm
                rw [hu]
                exact (ih hread).mpr ⟨hrest, hview⟩

/-- The files of a tree that was read are those that stand there and are shown. -/
theorem contents_of_readNode (h : (readNode node p).result = .ok t) :
    (t.at? ns).bind Tree.contents? = some c ↔
      Shown ns ∧ node.find? (ns.map Utf8.encode) = some (.file c) := by
  rw [← Tree.shape_eq_file_iff, shape_of_readNode h, ← DiskNode.view_eq_file_iff]
  rfl

/-! ### When reading succeeds -/

theorem readNames_isOk {readers : List (Bytes × (Path → Reading FileTree))} {names : List String}
    (h : ∀ n ∈ names, (Utf8.encode n).length ≤ maxName ∧ ∃ read t,
      Entries.get? (Utf8.encode n) readers = some read ∧
        (read (p.join (Utf8.encode n))).result = .ok t) :
    ∃ l, (readNames p readers names).result = .ok l := by
  induction names with
  | nil => exact ⟨[], rfl⟩
  | cons n names ih =>
      rw [List.forall_mem_cons] at h
      obtain ⟨⟨hlen, read, t, hread, ht⟩, hrest⟩ := h
      obtain ⟨l, hl⟩ := ih hrest
      refine ⟨(n, t) :: l, ?_⟩
      rw [readNames]
      simp only [if_neg (Nat.not_lt.mpr hlen), hread]
      exact Traced.bind_eq_ok.mpr ⟨t, ht, Traced.bind_eq_ok.mpr ⟨l, hl, rfl⟩⟩

theorem find?_cons_of_get? (hm : Entries.get? (Utf8.encode n) es = some m) (place : List Bytes) :
    (DiskNode.dir es).find? (Utf8.encode n :: place) = m.find? place := by
  rw [DiskNode.find?, hm, Option.bind_some]

theorem passable_of_readNode (h : (readNode node p).result = .ok t) : Passable node p := by
  intro ns hns hfind
  induction ns generalizing node p t with
  | nil => exact ⟨checkPath_of_readNode h, fun _ h => by cases h⟩
  | cons n ns ih =>
      obtain ⟨hshown, hrest⟩ := shown_cons.mp hns
      cases node with
      | file b => exact absurd rfl hfind
      | dir es =>
          obtain ⟨m, hm⟩ : ∃ m, Entries.get? (Utf8.encode n) es = some m := by
            refine Option.ne_none_iff_exists'.mp fun hnone => hfind ?_
            rw [List.map_cons, DiskNode.find?, hnone]
            rfl
          obtain ⟨u, -, hlen, hread⟩ := readNode_shown h hshown hm
          rw [List.map_cons, find?_cons_of_get? hm] at hfind
          obtain ⟨hcheck, hnames⟩ := ih hread hrest hfind
          exact ⟨hcheck, List.forall_mem_cons.mpr ⟨hlen, hnames⟩⟩

theorem Passable.entry (h : Passable (.dir es) p) (hn : isIgnored n = false)
    (hm : Entries.get? (Utf8.encode n) es = some m) :
    (Utf8.encode n).length ≤ maxName ∧ Passable m (p.join (Utf8.encode n)) := by
  have below : ∀ ns, Shown ns → m.find? (ns.map Utf8.encode) ≠ none → Fits p (n :: ns) := by
    intro ns hns hfind
    refine h (n :: ns) (shown_cons.mpr ⟨hn, hns⟩) ?_
    rwa [List.map_cons, find?_cons_of_get? hm]
  have htop := below [] shown_nil (by simp [DiskNode.find?])
  refine ⟨htop.2 n List.mem_cons_self, fun ns hns hfind => ?_⟩
  obtain ⟨hcheck, hnames⟩ := below ns hns hfind
  exact ⟨hcheck, fun n hn => hnames n (List.mem_cons_of_mem _ hn)⟩

theorem Textual.entry (h : Textual (.dir es)) {k : Bytes} (hm : Entries.get? k es = some m) :
    Textual m ∧ ∃ n, k = Utf8.encode n := by
  have below : ∀ place, m.find? place ≠ none → ∃ ns : List String,
      k :: place = ns.map Utf8.encode := by
    intro place hfind
    refine h (k :: place) ?_
    rwa [DiskNode.find?, hm, Option.bind_some]
  refine ⟨fun place hfind => ?_, ?_⟩
  · obtain ⟨ns, hns⟩ := below place hfind
    exact ⟨ns.tail, by rw [List.map_tail, ← hns, List.tail_cons]⟩
  · obtain ⟨_ | ⟨n, ns⟩, hns⟩ := below [] (by simp [DiskNode.find?])
    · cases hns
    · exact ⟨n, (List.cons.inj hns).1⟩

mutual

/-- A node whose names are text and whose paths are taken can be read. -/
theorem readNode_isOk : ∀ (node : DiskNode) {p : Path}, Textual node → Passable node p →
    ∃ t, (readNode node p).result = .ok t
  | .file c, p, _, hp =>
    ⟨_, readNode_file_eq_ok.mpr ⟨(hp [] shown_nil (by simp [DiskNode.find?])).1, rfl⟩⟩
  | .dir es, p, ht, hp => by
    have hcheck : checkPath p = .ok () := (hp [] shown_nil (by simp [DiskNode.find?])).1
    have hall : ∀ n ∈ shownNames es, (Utf8.encode n).length ≤ maxName ∧ ∃ read t,
        Entries.get? (Utf8.encode n) (readersOf es) = some read ∧
          (read (p.join (Utf8.encode n))).result = .ok t := by
      intro n hn
      obtain ⟨⟨k, hk, hrepair⟩, hshown⟩ := mem_shownNames.mp hn
      obtain ⟨m, hm⟩ := Entries.exists_of_mem_keys hk
      obtain ⟨htext, n', rfl⟩ := ht.entry hm
      obtain rfl : n' = n := (Utf8.repair_encode n').symm.trans hrepair
      obtain ⟨hlen, hpass⟩ := hp.entry hshown hm
      obtain ⟨t, hread⟩ := readEntries_isOk es _ (Entries.mem_of_get? hm) htext hpass
      exact ⟨hlen, readNode m, t, by rw [get?_readersOf, hm]; rfl, hread⟩
    obtain ⟨l, hl⟩ := readNames_isOk hall
    exact ⟨_, readNode_dir_eq_ok.mpr ⟨hcheck, l, hl, rfl⟩⟩

theorem readEntries_isOk : ∀ (es : List (Bytes × DiskNode)), ∀ e ∈ es, ∀ {p : Path},
    Textual e.2 → Passable e.2 p → ∃ t, (readNode e.2 p).result = .ok t
  | [], _, he, _, _, _ => by cases he
  | (k, m) :: es, e, he, p, ht, hp => by
    rcases List.mem_cons.mp he with rfl | he
    · exact readNode_isOk m ht hp
    · exact readEntries_isOk es e he ht hp

end

/-! ### After writing -/

theorem checkPath_eq_ok : checkPath p = .ok () ↔
    0 ∉ p.bytes ∧ p.bytes ≠ [] ∧ p.bytes.length ≤ maxPath := by
  by_cases hnull : 0 ∈ p.bytes
  · simp [checkPath, hnull]
  · by_cases hempty : p.bytes = []
    · simp [checkPath, hempty]
    · simp [checkPath, hnull, hempty]

theorem checkPath_of_shorter {q : Path} (h : checkPath q = .ok ()) (hp : p.bytes <+: q.bytes)
    (hne : p.bytes ≠ []) : checkPath p = .ok () := by
  obtain ⟨hnull, -, hlength⟩ := checkPath_eq_ok.mp h
  exact checkPath_eq_ok.mpr
    ⟨fun hmem => hnull (hp.subset hmem), hne, Nat.le_trans hp.length_le hlength⟩

theorem fits_of_resolve {place : List Bytes} (hns : Path.Names ns)
    (hr : d.resolve (p.below ns) = .ok place) : Fits p ns := by
  have hlengths : ∀ {ns : List String} {place place' : List Bytes}, Path.Names ns →
      d.walk place (ns.map Utf8.encode) = .ok place' →
        ∀ n ∈ ns, (Utf8.encode n).length ≤ maxName := by
    intro ns
    induction ns with
    | nil => exact fun _ _ _ h => by cases h
    | cons n ns ih =>
        intro place place' hns hw
        rw [List.map_cons, walk] at hw
        obtain ⟨_, hstep, hw⟩ := bind_eq_ok.mp hw
        obtain ⟨_, -, hlen, -, -⟩ := (step_name (Path.piece_of_isValid hns.head).1).mp hstep
        exact List.forall_mem_cons.mpr ⟨hlen, ih hns.tail hw⟩
  unfold resolve at hr
  obtain ⟨_, hcheck, hw⟩ := bind_eq_ok.mp hr
  refine ⟨hcheck, ?_⟩
  by_cases hne : ns = []
  · subst hne
    exact fun _ h => by cases h
  · rw [Path.pieces_below p hns hne, walk_append] at hw
    obtain ⟨_, -, hw⟩ := bind_eq_ok.mp hw
    exact hlengths hns hw

theorem checkPath_of_stat (h : d.stat p = .ok node) : checkPath p = .ok () := by
  obtain ⟨_, hr, -⟩ := stat_eq_ok.mp h
  exact (fits_of_resolve Path.names_nil hr).1

theorem resolve_of_isDir (h : d.isDir p = true) :
    d.resolve p = .ok p.place ∧ ∃ es, d.top.find? p.place = some (.dir es) := by
  obtain ⟨place, es, hr, hes⟩ := isDir_iff.mp h
  obtain rfl := resolve_eq_place hr
  exact ⟨hr, es, hes⟩

theorem isDir_of_join {place : List Bytes} (hcheck : checkPath p = .ok ())
    (hn : Identifier.isValid n = true)
    (hr : d.resolve (p.join (Utf8.encode n)) = .ok place) : d.isDir p = true := by
  obtain ⟨hname, hslash⟩ := Path.piece_of_isValid hn
  unfold resolve at hr
  obtain ⟨-, -, hw⟩ := bind_eq_ok.mp hr
  rw [p.pieces_join hslash, walk_append] at hw
  obtain ⟨top, htop, hw⟩ := bind_eq_ok.mp hw
  obtain ⟨_, hstep, -⟩ := bind_eq_ok.mp hw
  obtain ⟨es, hes, -⟩ := step_eq_ok.mp hstep
  refine isDir_iff.mpr ⟨top, es, bind_eq_ok.mpr ⟨(), hcheck, ?_⟩, hes⟩
  rcases p.pieces_eq_stem with hpieces | hpieces
  · rw [hpieces, htop]
  · rw [hpieces, walk_append, htop]
    show d.walk top [[]] = _
    rw [walk]
    exact bind_eq_ok.mpr ⟨top, step_eq_ok.mpr ⟨es, hes, .inl ⟨.inl rfl, rfl⟩⟩, rfl⟩

theorem Fits.of_append (h : Fits p (ns ++ ms)) (hms : Path.Names ms)
    (hne : (p.below ns).bytes ≠ []) : Fits p ns := by
  obtain ⟨hcheck, hnames⟩ := h
  rw [Path.below_append] at hcheck
  exact ⟨checkPath_of_shorter hcheck ((p.below ns).bytes_below hms) hne,
    fun n hn => hnames n (List.mem_append_left ms hn)⟩

/-- Whether the system takes the paths of all that is new below a path. -/
def Grown (root : Path) (d d' : Disk) : Prop :=
  ∀ ns, Path.Names ns → d.view (root.below ns).place = .nothing →
    d'.view (root.below ns).place ≠ .nothing → Fits root ns

theorem Grown.refl (root : Path) (d : Disk) : Grown root d d := fun _ _ h h' => absurd h h'

theorem Grown.trans (g : Grown root d d') (g' : Grown root d' d'') : Grown root d d'' := by
  intro ns hns hnone hsome
  by_cases h : d'.view (root.below ns).place = .nothing
  · exact g' ns hns h hsome
  · exact g ns hns hnone h

theorem grown_makeDirs (hns : Path.Names ns) (hroot : d.isDir root = true)
    (hx : exec (makeDirs (root.below ns)) d = (.ok (), d')) : Grown root d d' := by
  obtain ⟨_, _, hr, -⟩ := isDir_iff.mp hroot
  have hbytes : ∀ {ms}, Path.Names ms → (root.below ms).bytes ≠ [] := by
    intro ms hms hempty
    have hprefix := root.bytes_below hms
    rw [hempty, List.prefix_nil] at hprefix
    exact (checkPath_eq_ok.mp (fits_of_resolve Path.names_nil hr).1).2.1 hprefix
  intro ms hms hnone hsome
  rcases altered_makeDirs _ hx (root.below ms).place with h | ⟨_, h, -⟩ | ⟨hway, -⟩
  · exact absurd (h.trans hnone) hsome
  · exact h.elim
  · rcases Path.onWay_below hns hway with hway | ⟨ks, ks', rfl, hplace⟩
    · rw [view_onWay hroot hway] at hnone
      cases hnone
    · have hks : Path.Names ks := fun n hn => hns n (List.mem_append_left ks' hn)
      obtain rfl := Path.names_of_place hms hks hplace
      obtain ⟨_, _, hr', -⟩ := isDir_iff.mp ((exec_makeDirs_ok hx).resolve_left (hbytes hns))
      exact (fits_of_resolve hns hr').of_append (fun n hn => hns n (List.mem_append_right ms hn))
        (hbytes hks)

mutual

/-- When writing a tree below a directory ends well, the system takes the paths of all that is new. -/
theorem exec_writeWith_grown (isSame : Tree β → Tree α → Bool) (root : Path) : ∀ (t : Tree α)
    {previous : Option (Tree β)} {pre : List String} {s s' : Log} {summary : Summary},
    t.Storable → Path.Names pre → s.disk.isDir root = true →
      exec (writeWith isSame previous t (root.below pre)) s = (.ok summary, s') →
        Grown root s.disk s'.disk
  | .file l c, previous, pre, s, s', summary, _, hpre, _, hx => by
    rcases exec_writeWith_file hx with ⟨-, -, rfl⟩ | ⟨-, ⟨_, hset⟩, hok⟩
    · exact .refl _ _
    · intro ns hns hnone hsome
      rcases altered_setFile _ c hset (root.below ns).place with h | ⟨_, ⟨hplace, -⟩, -⟩ | ⟨h, -⟩
      · exact absurd (h.trans hnone) hsome
      · obtain rfl := Path.names_of_place hns hpre hplace
        obtain ⟨_, hr, -⟩ := contentsAt_eq_ok.mp (hok summary rfl).2
        exact fits_of_resolve hns hr
      · exact h.elim
  | .dir l es, previous, pre, s, s', summary, st, hpre, hroot, hx => by
    rw [Tree.Storable] at st
    rcases exec_writeWith_dir_eq_ok hx with ⟨_, -, -, -, hdisk⟩ | ⟨s₁, hmade, hall⟩
    · exact hdisk ▸ .refl _ _
    · have hroot' := (adds_makeDirs _ hmade).isDir hroot
      exact (grown_makeDirs hpre hroot hmade).trans
        (exec_writeEntries_grown isSame root es st hpre hroot' hall)

theorem exec_writeEntries_grown (isSame : Tree β → Tree α → Bool) (root : Path) :
    ∀ (es : List (String × Tree α)) {previous : Option (Tree β)} {pre : List String} {s s' : Log}
    {summary : Summary}, Tree.StorableAll es → Path.Names pre → s.disk.isDir root = true →
      exec (writeEntries isSame previous es (root.below pre)) s = (.ok summary, s') →
        Grown root s.disk s'.disk
  | [], previous, pre, s, s', summary, _, _, _, hx => by
    rw [writeEntries] at hx
    obtain ⟨-, rfl⟩ := Prod.mk.inj hx
    exact .refl _ _
  | (n, t) :: es, previous, pre, s, s', summary, st, hpre, hroot, hx => by
    rw [Tree.StorableAll] at st
    obtain ⟨hvalid, -, ht, hes⟩ := st
    obtain ⟨first, s₁, rest, hfirst, hall, -⟩ := exec_writeEntries_cons_eq_ok hx
    rw [← Path.below_concat] at hfirst
    have hroot' := (exec_writeWith_altered isSame t ht hfirst).toExtends.isDir hroot
    exact (exec_writeWith_grown isSame root t ht (hpre.append (Path.names_singleton hvalid)) hroot
      hfirst).trans (exec_writeEntries_grown isSame root es hes hpre hroot' hall)

end

/-! ### Trees that are read again -/

theorem view_of_stat (h : d.stat root = .ok node) (place : List Bytes) :
    d.view (root.place ++ place) = DiskNode.view (node.find? place) := by
  obtain ⟨top, hr, hnode⟩ := stat_eq_ok.mp h
  rw [view, ← resolve_eq_place hr, DiskNode.find?_append, hnode, Option.bind_some]

/-- The files of a tree that was read are those on disk whose paths are shown. -/
theorem contents_of_readTree (h : (readTree d root).result = .ok t) :
    (t.at? ns).bind Tree.contents? = some c ↔
      Shown ns ∧ d.view (root.place ++ ns.map Utf8.encode) = .file c := by
  obtain ⟨node, hstat, hread⟩ := readTree_eq_ok.mp h
  rw [contents_of_readNode hread, view_of_stat hstat, DiskNode.view_eq_file_iff]

/-- After a writing below a directory, what could be read can be read again. -/
theorem readTree_again {F : List Bytes → Bytes → Prop} {D : List Bytes → Prop}
    (h : (readTree d root).result = .ok t) (hdir : d.isDir root = true)
    (htext : ∀ node, d.stat root = .ok node → Textual node) (a : Altered F D d d')
    (hplaces : ∀ place, (∃ c, F place c) ∨ D place →
      root.OnWay place ∨ ∃ ns, Path.Names ns ∧ place = (root.below ns).place)
    (g : Grown root d d') : ∃ t', (readTree d' root).result = .ok t' := by
  obtain ⟨node, hstat, hread⟩ := readTree_eq_ok.mp h
  obtain ⟨place, es, hr, hes⟩ := isDir_iff.mp (a.toExtends.isDir hdir)
  have hstat' : d'.stat root = .ok (.dir es) := stat_eq_ok.mpr ⟨place, hr, hes⟩
  -- what is seen now was seen before, or is new and lies below some names
  have old : ∀ place, (DiskNode.dir es).find? place ≠ none → node.find? place ≠ none ∨
      ∃ ns, Path.Names ns ∧ place = ns.map Utf8.encode ∧ Fits root ns := by
    intro place hfind
    by_cases hbefore : node.find? place = none
    · have hnone : d.view (root.place ++ place) = .nothing := by
        rw [view_of_stat hstat, hbefore]
        rfl
      have hsome : d'.view (root.place ++ place) ≠ .nothing := by
        rw [view_of_stat hstat']
        exact fun hview => hfind (DiskNode.view_eq_nothing_iff.mp hview)
      have hnew : root.OnWay (root.place ++ place) ∨
          ∃ ns, Path.Names ns ∧ root.place ++ place = (root.below ns).place := by
        rcases a (root.place ++ place) with hsame | ⟨c, hF, -⟩ | ⟨hD, -⟩
        · exact absurd (hsame.trans hnone) hsome
        · exact hplaces _ (.inl ⟨c, hF⟩)
        · exact hplaces _ (.inr hD)
      rcases hnew with hway | ⟨ns, hns, hplace⟩
      · rw [view_onWay hdir hway] at hnone
        cases hnone
      · rw [hplace] at hnone hsome
        rw [root.place_below hns] at hplace
        exact .inr ⟨ns, hns, List.append_cancel_left hplace, g ns hns hnone hsome⟩
    · exact .inl hbefore
  have htextual : Textual (.dir es) := by
    intro place hfind
    rcases old place hfind with hbefore | ⟨ns, -, hplace, -⟩
    · exact htext node hstat place hbefore
    · exact ⟨ns, hplace⟩
  have hpassable : Passable (.dir es) root := by
    intro ns hns hfind
    rcases old _ hfind with hbefore | ⟨ns', -, hplace, hfits⟩
    · exact passable_of_readNode hread ns hns hbefore
    · rwa [Utf8.map_encode_injective hplace]
  obtain ⟨t', ht'⟩ := readNode_isOk _ htextual hpassable
  exact ⟨t', readTree_eq_ok.mpr ⟨_, hstat', ht'⟩⟩

end Disk

end PackageOutline
