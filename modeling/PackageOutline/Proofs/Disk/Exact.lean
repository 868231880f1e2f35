import PackageOutline.Proofs.Disk.Reading
import PackageOutline.Proofs.Disk.Views
import PackageOutline.Proofs.Disk.Writing
import PackageOutline.Proofs.Tree.Files

/-! # Writing exactly what differs

What writing a tree to a path does to a disk.

* `exec_writeWith_altered`: however it ends, only places of the tree are altered.
* `exec_writeWith_holds`: when the tree before was on disk and the writing ends well, the tree is on
  disk.
* `exec_writeWith_counts`: the summary counts the files that differ from the tree before, and the
  others. -/

namespace PackageOutline

namespace Tree

variable {α β : Type} {t u : Tree α} {es : List (String × Tree α)} {n : String} {ns : List String}
  {c : Bytes}

mutual

theorem Storable.wellNamed : ∀ t : Tree α, t.Storable → t.WellNamed
  | .file _ _, _ => by
    rw [WellNamed]
    trivial
  | .dir _ es, s => by
    rw [Storable] at s
    rw [WellNamed]
    exact StorableAll.wellNamed es s

theorem StorableAll.wellNamed : ∀ es : List (String × Tree α), StorableAll es →
    (Entries.keys es).Nodup ∧ WellNamedAll es
  | [], _ => by simp [WellNamedAll]
  | (n, t) :: es, s => by
    rw [StorableAll] at s
    obtain ⟨-, hfresh, ht, hes⟩ := s
    obtain ⟨hnodup, hall⟩ := StorableAll.wellNamed es hes
    rw [Entries.keys_cons, List.nodup_cons, WellNamedAll]
    exact ⟨⟨hfresh, hnodup⟩, Storable.wellNamed t ht, hall⟩

end

theorem StorableAll.valid (s : StorableAll es) (hn : n ∈ Entries.keys es) :
    Identifier.isValid n = true := by
  obtain ⟨t, ht⟩ := Entries.exists_of_mem_keys hn
  exact (s.get? ht).1

end Tree

namespace Disk

variable {α β : Type} {isSame : Tree β → Tree α → Bool} {previous : Option (Tree β)} {t u : Tree α}
  {es : List (String × Tree α)} {d d' : Disk} {p : Path} {place : List Bytes} {n m : String}
  {ns : List String} {c : Bytes} {l : α} {P : List Bytes → Prop}

/-! ### What writing may alter -/

/-- The places of the files of a tree that is written to a path, with their contents. -/
def Written (t : Tree α) (p : Path) (place : List Bytes) (c : Bytes) : Prop :=
  ∃ ns, (t.at? ns).bind Tree.contents? = some c ∧ place = (p.below ns).place

/-- The places of the directories of a tree that is written to a path, and, if the tree is a
directory, of those on the way. -/
def Opened (t : Tree α) (p : Path) (place : List Bytes) : Prop :=
  t.isDir = true ∧ p.OnWay place ∨
    ∃ ns u, t.at? ns = some u ∧ u.isDir = true ∧ place = (p.below ns).place

theorem Written.of_entry (hn : Entries.get? n es = some t)
    (hw : Written t (p.join (Utf8.encode n)) place c) : Written (Tree.dir l es) p place c := by
  obtain ⟨ns, hc, rfl⟩ := hw
  refine ⟨n :: ns, ?_, rfl⟩
  show ((Entries.get? n es).bind (Tree.at? ns)).bind Tree.contents? = some c
  rw [hn]
  exact hc

theorem Written.entry (hw : Written (Tree.dir l es) p place c) :
    ∃ n t, Entries.get? n es = some t ∧ Written t (p.join (Utf8.encode n)) place c := by
  obtain ⟨ns, hc, rfl⟩ := hw
  cases ns with
  | nil => cases hc
  | cons n ns =>
      obtain ⟨u, hu, hc⟩ := Option.bind_eq_some_iff.mp hc
      obtain ⟨t, ht, hu⟩ := Option.bind_eq_some_iff.mp hu
      exact ⟨n, t, ht, ns, by rw [hu]; exact hc, rfl⟩

theorem Opened.of_entry (hvalid : Identifier.isValid n = true) (hn : Entries.get? n es = some t)
    (ho : Opened t (p.join (Utf8.encode n)) place) : Opened (Tree.dir l es) p place := by
  have below : ∀ ns u, t.at? ns = some u → (Tree.dir l es).at? (n :: ns) = some u := by
    intro ns u hu
    show (Entries.get? n es).bind (Tree.at? ns) = some u
    rw [hn]
    exact hu
  rcases ho with ⟨hdir, hway⟩ | ⟨ns, u, hu, hdir, rfl⟩
  · rcases Path.onWay_join hvalid hway with hway | rfl
    · exact .inl ⟨rfl, hway⟩
    · exact .inr ⟨[n], t, below [] t rfl, hdir, rfl⟩
  · exact .inr ⟨n :: ns, u, below ns u hu, hdir, rfl⟩

theorem get?_tail (hfresh : n ∉ Entries.keys es) (hm : Entries.get? m es = some u) :
    Entries.get? m ((n, t) :: es) = some u := by
  have hne : n ≠ m := fun h => hfresh (h ▸ Entries.mem_keys_of_get? hm)
  rwa [Entries.get?, if_neg hne]

theorem Written.tail (hfresh : n ∉ Entries.keys es) (hw : Written (Tree.dir l es) p place c) :
    Written (Tree.dir l ((n, t) :: es)) p place c := by
  obtain ⟨m, u, hm, hw⟩ := hw.entry
  exact .of_entry (get?_tail hfresh hm) hw

theorem Opened.tail (hfresh : n ∉ Entries.keys es) (ho : Opened (Tree.dir l es) p place) :
    Opened (Tree.dir l ((n, t) :: es)) p place := by
  rcases ho with ho | ⟨ns, u, hu, hdir, rfl⟩
  · exact .inl ho
  · cases ns with
    | nil => exact .inr ⟨[], _, rfl, rfl, rfl⟩
    | cons m ns =>
        obtain ⟨v, hv, hu⟩ := Option.bind_eq_some_iff.mp hu
        refine .inr ⟨m :: ns, u, ?_, hdir, rfl⟩
        exact Option.bind_eq_some_iff.mpr ⟨v, get?_tail hfresh hv, hu⟩

mutual

/-- Writing a tree, however it ends, alters places of the tree only. -/
theorem exec_writeWith_altered (isSame : Tree β → Tree α → Bool) : ∀ (t : Tree α)
    {previous : Option (Tree β)} {p : Path} {s s' : Log} {r : Except DiskError Summary},
    t.Storable → exec (writeWith isSame previous t p) s = (r, s') →
      Altered (Written t p) (Opened t p) s.disk s'.disk
  | .file l c, previous, p, s, s', r, _, hx => by
    rcases exec_writeWith_file hx with ⟨-, -, rfl⟩ | ⟨-, ⟨r', hset⟩, -⟩
    · exact .refl _ _ _
    · refine (altered_setFile p c hset).mono ?_ (fun h => h.elim)
      rintro place c' ⟨rfl, rfl⟩
      exact ⟨[], rfl, rfl⟩
  | .dir l es, previous, p, s, s', r, st, hx => by
    rw [Tree.Storable] at st
    rcases exec_writeWith_dir hx with ⟨_, -, -, -, hdisk⟩ | ⟨_, hmade, -⟩ | ⟨s₁, hmade, hall⟩
    · exact hdisk ▸ .refl _ _ _
    · exact (altered_makeDirs p hmade).mono (fun h => h.elim) fun h => .inl ⟨rfl, h⟩
    · have a : Altered (Written (Tree.dir l es) p) (Opened (Tree.dir l es) p) s.disk s₁.disk :=
        (altered_makeDirs p hmade).mono (fun h => h.elim) fun h => .inl ⟨rfl, h⟩
      exact a.trans (exec_writeEntries_altered isSame l es st hall)

theorem exec_writeEntries_altered (isSame : Tree β → Tree α → Bool) (l : α) :
    ∀ (es : List (String × Tree α)) {previous : Option (Tree β)} {p : Path} {s s' : Log}
    {r : Except DiskError Summary}, Tree.StorableAll es →
      exec (writeEntries isSame previous es p) s = (r, s') →
        Altered (Written (Tree.dir l es) p) (Opened (Tree.dir l es) p) s.disk s'.disk
  | [], previous, p, s, s', r, _, hx => by
    rw [writeEntries] at hx
    obtain ⟨-, rfl⟩ := Prod.mk.inj hx
    exact .refl _ _ _
  | (n, t) :: es, previous, p, s, s', r, st, hx => by
    rw [Tree.StorableAll] at st
    obtain ⟨hvalid, hfresh, ht, hes⟩ := st
    have hget : Entries.get? n ((n, t) :: es) = some t := by rw [Entries.get?, if_pos rfl]
    rcases exec_writeEntries_cons hx with ⟨_, hfirst, -⟩ | ⟨_, s₁, _, hfirst, hall, -⟩
    · exact (exec_writeWith_altered isSame t ht hfirst).mono (.of_entry hget)
        (.of_entry hvalid hget)
    · have a := (exec_writeWith_altered isSame t ht hfirst).mono
        (Written.of_entry (l := l) hget) (Opened.of_entry (l := l) hvalid hget)
      exact a.trans ((exec_writeEntries_altered isSame l es hes hall).mono (.tail hfresh)
        (.tail hfresh))

end

/-! ### Trees on disk -/

/-- Whether a path leads to a file with the contents of a tree, or to a directory if the tree is one;
the empty path stands for the top. -/
def stands (d : Disk) (p : Path) : Tree α → Prop
  | .file _ c => d.contentsAt p = .ok c
  | .dir .. => p.bytes = [] ∨ d.isDir p = true

/-- All files and directories of a tree are on disk, below a path. -/
def Holds (d : Disk) (p : Path) (t : Tree α) : Prop :=
  ∀ ns u, t.at? ns = some u → d.stands (p.below ns) u

theorem Holds.entry (h : Holds d p t) (hu : t.entry? n = some u) :
    Holds d (p.join (Utf8.encode n)) u := by
  intro ns v hv
  refine h (n :: ns) v ?_
  rw [Tree.at?, hu]
  exact hv

theorem holds_dir (htop : p.bytes = [] ∨ d.isDir p = true)
    (hes : ∀ n u, Entries.get? n es = some u → Holds d (p.join (Utf8.encode n)) u) :
    Holds d p (Tree.dir l es) := by
  intro ns u hu
  cases ns with
  | nil =>
      obtain rfl := Option.some.inj hu
      exact htop
  | cons n ns =>
      obtain ⟨v, hv, hu⟩ := Option.bind_eq_some_iff.mp hu
      exact hes n v hv ns u hu

theorem holds_dir_of_mem (htop : p.bytes = [] ∨ d.isDir p = true)
    (hes : ∀ e ∈ es, Holds d (p.join (Utf8.encode e.1)) e.2) : Holds d p (Tree.dir l es) :=
  holds_dir htop fun n u hu => hes (n, u) (Entries.mem_of_get? hu)

theorem stands_of_plain {v : Tree β} (h : u.plain = v.plain) (hs : d.stands p u) : d.stands p v := by
  cases u <;> cases v <;> simp only [Tree.plain, Tree.map, reduceCtorEq, Tree.file.injEq] at h
  · rw [stands, ← h.2]
    exact hs
  · exact hs

theorem Holds.of_plain {v : Tree β} (h : t.plain = v.plain) (ht : Holds d p t) : Holds d p v := by
  intro ns w hw
  have hplain := congrArg (Tree.at? ns) h
  rw [Tree.plain, Tree.plain, Tree.at?_map, Tree.at?_map, hw] at hplain
  obtain ⟨u, hu, huw⟩ := Option.map_eq_some_iff.mp hplain
  exact stands_of_plain huw (ht ns u hu)

theorem Holds.later (h : Holds d p t) (e : Extends P d d')
    (hP : ∀ ns c, (t.at? ns).bind Tree.contents? = some c → ¬ P (p.below ns).place) :
    Holds d' p t := by
  intro ns u hu
  have hs := h ns u hu
  cases u with
  | dir l es => exact hs.imp_right e.isDir
  | file l c =>
      obtain ⟨place, hr, -⟩ := contentsAt_eq_ok.mp hs
      have hnot := hP ns c (by rw [hu]; rfl)
      rw [← resolve_eq_place hr] at hnot
      exact e.contentsAt hr hnot hs

theorem not_written_beside (hne : n ≠ m) (hn : Identifier.isValid n = true) (ht : t.Storable)
    (hnames : Path.Names (m :: ns)) :
    ¬ Written t (p.join (Utf8.encode n)) (p.below (m :: ns)).place c := by
  rintro ⟨ns', hc, hplace⟩
  obtain ⟨u, hu, -⟩ := Option.bind_eq_some_iff.mp hc
  have hnames' : Path.Names (n :: ns') := (Path.names_singleton hn).append (ht.names hu)
  exact hne (List.cons.inj (Path.names_of_place hnames hnames' hplace)).1.symm

theorem Holds.beside {v : Tree β} (hv : Holds d (p.join (Utf8.encode m)) v) (hne : n ≠ m)
    (hn : Identifier.isValid n = true) (hm : Identifier.isValid m = true) (ht : t.Storable)
    (sv : v.Storable) (a : Altered (Written t (p.join (Utf8.encode n)))
      (Opened t (p.join (Utf8.encode n))) d d') : Holds d' (p.join (Utf8.encode m)) v := by
  refine hv.later a.toExtends ?_
  rintro ns c hc ⟨c', hw⟩
  obtain ⟨w, hw', -⟩ := Option.bind_eq_some_iff.mp hc
  exact not_written_beside hne hn ht ((Path.names_singleton hm).append (sv.names hw')) hw

/-! ### What is on disk in the end -/

/-- Whether a tree that may be there is on disk below a path, all its names being valid. -/
def Kept (d : Disk) (p : Path) (previous : Option (Tree β)) : Prop :=
  ∀ u ∈ previous, u.Storable ∧ Holds d p u

theorem Kept.entry (k : Kept d p previous) (n : String) :
    Kept d (p.join (Utf8.encode n)) (previous.bind fun a => a.entry? n) := by
  intro v hv
  obtain ⟨u, hu, hv⟩ := Option.bind_eq_some_iff.mp hv
  obtain ⟨su, hu⟩ := k u hu
  exact ⟨(su.entry? hv).2, hu.entry hv⟩

theorem Kept.later (k : Kept d p previous) (e : Extends (fun _ => False) d d') :
    Kept d' p previous := fun u hu => ⟨(k u hu).1, (k u hu).2.later e fun _ _ _ h => h⟩

theorem Kept.beside (k : Kept d (p.join (Utf8.encode m)) previous) (hne : n ≠ m)
    (hn : Identifier.isValid n = true) (hm : Identifier.isValid m = true) (ht : t.Storable)
    (a : Altered (Written t (p.join (Utf8.encode n))) (Opened t (p.join (Utf8.encode n))) d d') :
    Kept d' (p.join (Utf8.encode m)) previous :=
  fun v hv => ⟨(k v hv).1, (k v hv).2.beside hne hn hm ht (k v hv).1 a⟩

theorem holds_file_iff : Holds d p (Tree.file l c) ↔ d.contentsAt p = .ok c := by
  constructor
  · exact fun h => h [] _ rfl
  · intro hc ns u hu
    cases ns with
    | nil =>
        obtain rfl := Option.some.inj hu
        exact hc
    | cons n ns => cases hu

mutual

/-- When writing a tree ends well, the tree is on disk. -/
theorem exec_writeWith_holds (isSame : Tree β → Tree α → Bool) : ∀ (t : Tree α)
    {previous : Option (Tree β)} {p : Path} {s s' : Log} {summary : Summary}, t.Storable →
      Kept s.disk p previous → tells isSame previous t = true →
        exec (writeWith isSame previous t p) s = (.ok summary, s') → Holds s'.disk p t
  | .file l c, previous, p, s, s', summary, _, k, _, hx => by
    rw [holds_file_iff]
    rcases exec_writeWith_file hx with ⟨hsame, -, rfl⟩ | ⟨-, -, hok⟩
    · obtain ⟨u, rfl, hu⟩ := Option.bind_eq_some_iff.mp hsame
      cases u with
      | dir l es => cases hu
      | file l b =>
          obtain rfl := Option.some.inj hu
          exact holds_file_iff.mp (k _ rfl).2
    · exact (hok summary rfl).2
  | .dir l es, previous, p, s, s', summary, st, k, htell, hx => by
    rw [Tree.Storable] at st
    rcases exec_writeWith_dir_eq_ok hx with ⟨a, rfl, hsame, -, hdisk⟩ | ⟨s₁, hmade, hall⟩
    · rw [hdisk]
      exact (k a rfl).2.of_plain (plain_of_tells htell hsame)
    · have k₁ := k.later (adds_makeDirs p hmade)
      have e := (exec_writeEntries_altered isSame l es st hall).toExtends
      refine holds_dir ((exec_makeDirs_ok hmade).imp_right e.isDir) ?_
      exact exec_writeEntries_holds isSame l es st (fun n _ => k₁.entry n) (tells_entries htell) hall

/-- When writing entries ends well, they are on disk. -/
theorem exec_writeEntries_holds (isSame : Tree β → Tree α → Bool) (l : α) :
    ∀ (es : List (String × Tree α)) {previous : Option (Tree β)} {p : Path} {s s' : Log}
    {summary : Summary}, Tree.StorableAll es →
      (∀ n ∈ Entries.keys es, Kept s.disk (p.join (Utf8.encode n))
        (previous.bind fun a => a.entry? n)) →
      tellsAll isSame previous es = true →
      exec (writeEntries isSame previous es p) s = (.ok summary, s') →
        ∀ n u, Entries.get? n es = some u → Holds s'.disk (p.join (Utf8.encode n)) u
  | [], previous, p, s, s', summary, _, _, _, _, n, u, hu => by cases hu
  | (m, t) :: es, previous, p, s, s', summary, st, k, htell, hx, n, u, hu => by
    rw [Tree.StorableAll] at st
    obtain ⟨hvalid, hfresh, ht, hes⟩ := st
    rw [tellsAll, Bool.and_eq_true] at htell
    obtain ⟨first, s₁, rest, hfirst, hall, -⟩ := exec_writeEntries_cons_eq_ok hx
    rw [Entries.get?] at hu
    by_cases hm : m = n
    · subst hm
      rw [if_pos rfl] at hu
      obtain rfl := Option.some.inj hu
      have h := exec_writeWith_holds isSame t ht (k m List.mem_cons_self) htell.1 hfirst
      refine h.later (exec_writeEntries_altered isSame l es hes hall).toExtends ?_
      rintro ns c hc ⟨c', hw⟩
      obtain ⟨v, hv, -⟩ := Option.bind_eq_some_iff.mp hc
      obtain ⟨k', u, hu, hw⟩ := hw.entry
      have hne : k' ≠ m := fun h => hfresh (h ▸ Entries.mem_keys_of_get? hu)
      obtain ⟨hvalid', hu⟩ := hes.get? hu
      exact not_written_beside hne hvalid' hu ((Path.names_singleton hvalid).append (ht.names hv)) hw
    · rw [if_neg hm] at hu
      have a := exec_writeWith_altered isSame t ht hfirst
      refine exec_writeEntries_holds isSame l es hes (fun k' hk' => ?_) htell.2 hall n u hu
      have hne : m ≠ k' := fun h => hfresh (h ▸ hk')
      exact (k k' (List.mem_cons_of_mem m hk')).beside hne hvalid (hes.valid hk') ht a

end

/-! ### Counting -/

/-- The number of files of a tree whose contents are not those of a file in the tree before. -/
def toWrite (previous : Option (Tree β)) (files : List (List String × Bytes)) : Nat :=
  files.countP fun f => (previous.bind (Tree.at? f.1)).bind Tree.contents? ≠ some f.2

theorem toWrite_of_plain {a : Tree β} (h : a.plain = t.plain) (w : t.WellNamed) :
    toWrite (some a) t.files = 0 := by
  unfold toWrite
  rw [List.countP_eq_zero]
  intro f hf
  have hc := Tree.contents_of_mem_files t w f hf
  rw [← Tree.contents_at?_of_plain h] at hc
  simp [hc]

/-- When a tree has the files of the tree before but for one, only that one may be missing there. -/
theorem toWrite_of_one (w : t.WellNamed) (hc : (t.at? ns).bind Tree.contents? = some c)
    (hothers : ∀ ms b, ms ≠ ns → (t.at? ms).bind Tree.contents? = some b →
      (previous.bind (Tree.at? ms)).bind Tree.contents? = some b) :
    toWrite previous t.files =
      if (previous.bind (Tree.at? ns)).bind Tree.contents? = some c then 0 else 1 := by
  have hone : ∀ f ∈ t.files, f.1 = ns → f = (ns, c) := by
    rintro ⟨ms, b⟩ hf rfl
    have hb := Tree.contents_of_mem_files t w _ hf
    rw [hc] at hb
    rw [Option.some.inj hb]
  unfold toWrite
  split
  · rename_i hsame
    rw [List.countP_eq_zero]
    intro f hf
    by_cases hns : f.1 = ns
    · simp [hone f hf hns, hsame]
    · simp [hothers f.1 f.2 hns (Tree.contents_of_mem_files t w f hf)]
  · rename_i hdiffers
    have hcount : t.files.count (ns, c) = 1 :=
      List.count_eq_one_of_mem (Tree.nodup_files t w) (Tree.mem_files_of_contents hc)
    rw [← hcount, List.count]
    refine List.countP_congr fun f hf => ?_
    by_cases hns : f.1 = ns
    · simp [hone f hf hns, hdiffers]
    · have hne : f ≠ (ns, c) := fun h => hns (congrArg Prod.fst h)
      simp [hothers f.1 f.2 hns (Tree.contents_of_mem_files t w f hf), hne]

theorem toWrite_append (previous : Option (Tree β)) (fs gs : List (List String × Bytes)) :
    toWrite previous (fs ++ gs) = toWrite previous fs + toWrite previous gs :=
  List.countP_append

theorem toWrite_below (previous : Option (Tree β)) (n : String) (fs : List (List String × Bytes)) :
    toWrite previous (fs.map fun f => (n :: f.1, f.2)) =
      toWrite (previous.bind fun a => a.entry? n) fs := by
  unfold toWrite
  rw [List.countP_map]
  congr 1
  funext f
  cases previous <;> rfl

mutual

/-- When writing a tree ends well, the files that differ were written, and all were counted. -/
theorem exec_writeWith_counts (isSame : Tree β → Tree α → Bool) : ∀ (t : Tree α)
    {previous : Option (Tree β)} {p : Path} {s s' : Log} {summary : Summary}, t.WellNamed →
      tells isSame previous t = true →
        exec (writeWith isSame previous t p) s = (.ok summary, s') →
          summary.written = toWrite previous t.files ∧
            summary.written + summary.unchanged = t.fileCount
  | .file l c, previous, p, s, s', summary, _, _, hx => by
    have hprevious : previous.bind (Tree.at? []) = previous := by cases previous <;> rfl
    rw [Tree.files, toWrite, List.countP_singleton, hprevious, Tree.fileCount_file]
    rcases exec_writeWith_file hx with ⟨hsame, hr, -⟩ | ⟨hother, -, hok⟩
    · rw [Except.ok.inj hr]
      simp [hsame]
    · rw [(hok summary rfl).1]
      simp [hother]
  | .dir l es, previous, p, s, s', summary, w, htell, hx => by
    rcases exec_writeWith_dir_eq_ok hx with ⟨a, rfl, hsame, rfl, -⟩ | ⟨s₁, -, hall⟩
    · rw [toWrite_of_plain (plain_of_tells htell hsame) w]
      simp
    · rw [Tree.WellNamed] at w
      rw [Tree.files, Tree.fileCount]
      exact exec_writeEntries_counts isSame es w.2 (tells_entries htell) hall

/-- When writing entries ends well, the files that differ were written, and all were counted. -/
theorem exec_writeEntries_counts (isSame : Tree β → Tree α → Bool) :
    ∀ (es : List (String × Tree α)) {previous : Option (Tree β)} {p : Path} {s s' : Log}
    {summary : Summary}, Tree.WellNamedAll es → tellsAll isSame previous es = true →
      exec (writeEntries isSame previous es p) s = (.ok summary, s') →
        summary.written = toWrite previous (Tree.filesAll es) ∧
          summary.written + summary.unchanged = Tree.fileCountAll es
  | [], previous, p, s, s', summary, _, _, hx => by
    rw [writeEntries] at hx
    obtain ⟨hr, -⟩ := Prod.mk.inj hx
    rw [← Except.ok.inj hr]
    exact ⟨rfl, rfl⟩
  | (m, t) :: es, previous, p, s, s', summary, w, htell, hx => by
    rw [Tree.WellNamedAll] at w
    rw [tellsAll, Bool.and_eq_true] at htell
    obtain ⟨first, s₁, rest, hfirst, hall, rfl⟩ := exec_writeEntries_cons_eq_ok hx
    obtain ⟨hwritten, hcount⟩ := exec_writeWith_counts isSame t w.1 htell.1 hfirst
    obtain ⟨hwritten', hcount'⟩ := exec_writeEntries_counts isSame es w.2 htell.2 hall
    rw [Tree.filesAll, Tree.fileCountAll, toWrite_append, toWrite_below]
    simp only [Summary.add]
    omega

end

end Disk

end PackageOutline
