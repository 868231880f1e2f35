import PackageOutline.Proofs.Tree.Inserting

/-! # Order after an insertion

`Tree.insert` puts every directory it passes through at the end of the directory that this one
stands in (`names_at_insertAt`), also when it then meets a file and fails.  So an insertion leaves
the order alone if, and only if, the entries on its way stand last in their directories already
(`LastOnWay`): `insert_order`. -/

namespace PackageOutline

namespace Tree

variable {α : Type} {t u v d : Tree α} {es : List (String × Tree α)} {n : String}
  {names ns place : List String} {mk : Nat → α} {c : Bytes} {depth : Nat} {path : Path}

/-- Names with at most one more after them. -/
def OnlyAppends (old new : List String) : Prop := ∃ added, new = old ++ added ∧ added.length ≤ 1

/-- Each directory that is still one has its old names in their order, and at most one after them. -/
def KeepsOrder (t t' : Tree α) : Prop :=
  ∀ place d d', t.at? place = some d → t'.at? place = some d' → d.isDir = true → d'.isDir = true →
    OnlyAppends d.names d'.names

/-- Each entry that a path leads through, if it is there, stands last in its directory. -/
def LastOnWay : List String → Tree α → Prop
  | [], _ => True
  | n :: ns, t => ns ≠ [] → ∀ u, t.entry? n = some u → t.names.getLast? = some n ∧ LastOnWay ns u

/-- The names in a directory after an insertion at a path that goes on from it with some name: the
file keeps the place of what it replaces, a directory does not keep its own. -/
def namesAfter (n : String) (ns names : List String) : List String :=
  if ns = [] then if n ∈ names then names else names ++ [n] else names.filter (· ≠ n) ++ [n]

theorem filter_ne_of_not_mem (hn : n ∉ names) : names.filter (· ≠ n) = names :=
  List.filter_eq_self.mpr fun m hm => by simpa using fun h : m = n => hn (h ▸ hm)

theorem filter_ne_concat (hk : names.Nodup) (hl : names.getLast? = some n) :
    names.filter (· ≠ n) ++ [n] = names := by
  obtain ⟨front, rfl⟩ := List.getLast?_eq_some_iff.mp hl
  have hn : n ∉ front := fun h => (List.nodup_append.mp hk).2.2 n h n List.mem_cons_self rfl
  have hlast : [n].filter (· ≠ n) = [] := by simp
  rw [List.filter_append, filter_ne_of_not_mem hn, hlast, List.append_nil]

/-- The order is kept where a directory that is passed through stands last. -/
theorem onlyAppends_namesAfter_iff (hk : names.Nodup) : OnlyAppends names (namesAfter n ns names) ↔
    (ns ≠ [] → n ∈ names → names.getLast? = some n) := by
  unfold namesAfter
  by_cases hns : ns = []
  · rw [if_pos hns]
    refine iff_of_true ?_ fun h => absurd hns h
    split
    · exact ⟨[], (List.append_nil _).symm, Nat.zero_le 1⟩
    · exact ⟨[n], rfl, Nat.le_refl 1⟩
  rw [if_neg hns]
  by_cases hn : n ∈ names
  · constructor
    · rintro ⟨added, hadded, -⟩ - -
      have hshort : (names.filter (· ≠ n)).length < names.length :=
        List.length_filter_lt_length_iff_exists.mpr ⟨n, hn, by simp⟩
      have hlength := congrArg List.length hadded
      rw [List.length_append, List.length_append, List.length_singleton] at hlength
      obtain rfl : added = [] := List.length_eq_zero_iff.mp (by omega)
      rw [List.append_nil] at hadded
      rw [← hadded, List.getLast?_concat]
    · intro hl
      rw [filter_ne_concat hk (hl hns hn)]
      exact ⟨[], (List.append_nil _).symm, Nat.zero_le 1⟩
  · rw [filter_ne_of_not_mem hn]
    exact iff_of_true ⟨[n], rfl, Nat.le_refl 1⟩ fun _ h => absurd h hn

/-! ### The way of an insertion -/

theorem mem_names_of_entry (hu : t.entry? n = some u) : n ∈ t.names := Entries.mem_keys_of_get? hu

theorem isDir_of_at? (h : t.at? place = some d) (hd : d.isDir = true) : t.isDir = true := by
  cases place with
  | nil =>
      obtain rfl := Option.some.inj h
      exact hd
  | cons n place =>
      cases t with
      | file l b => cases h
      | dir l es => rfl

theorem WellNamed.at? (w : t.WellNamed) (h : t.at? place = some d) : d.WellNamed := by
  induction place generalizing t with
  | nil =>
      obtain rfl := Option.some.inj h
      exact w
  | cons n place ih =>
      obtain ⟨u, hu, hd⟩ := Option.bind_eq_some_iff.mp h
      exact ih (w.entry? hu) hd

theorem names_insertAt (hd : t.isDir = true) :
    (insertAt mk c depth (n :: ns) t).1.names = namesAfter n ns t.names := by
  cases t with
  | file l b => cases hd
  | dir l es =>
      rw [insertAt_dir, namesAfter]
      show Entries.keys (if ns = [] then _ else _) =
        if ns = [] then if n ∈ Entries.keys es then Entries.keys es else Entries.keys es ++ [n]
          else (Entries.keys es).filter (· ≠ n) ++ [n]
      split
      · split
        · exact Entries.keys_set_of_mem ‹_› _
        · exact Entries.keys_set_of_not_mem ‹_› _
      · exact Entries.keys_put ..

/-- What becomes of the order in a directory on the way, whether the file arrives or not. -/
theorem names_at_insertAt (hplace : t.at? place = some d) (hd : d.isDir = true) :
    ∃ d', (insertAt mk c depth (place ++ n :: ns) t).1.at? place = some d' ∧ d'.isDir = true ∧
      d'.names = namesAfter n ns d.names := by
  induction place generalizing t depth with
  | nil =>
      obtain rfl := Option.some.inj hplace
      exact ⟨_, rfl, isDir_insertAt.trans hd, names_insertAt hd⟩
  | cons m place ih =>
      have ht := isDir_of_at? hplace hd
      obtain ⟨u, hu, hrest⟩ := Option.bind_eq_some_iff.mp hplace
      rw [List.cons_append, at?_insertAt_cons ht, if_pos rfl, hu, arrival_of_ne (by simp)]
      exact ih hrest

theorem lastOnWay_file (ns : List String) (h : t.isDir = false) : LastOnWay ns t := by
  cases ns with
  | nil => trivial
  | cons n ns =>
      cases t with
      | file l b => exact fun _ u hu => by cases hu
      | dir l es => cases h

theorem lastOnWay_cons_iff (hn : ns ≠ []) (hu : t.entry? n = some u) :
    LastOnWay (n :: ns) t ↔ t.names.getLast? = some n ∧ LastOnWay ns u := by
  constructor
  · intro h
    exact h hn u hu
  · intro h _ v hv
    obtain rfl := Option.some.inj (hu.symm.trans hv)
    exact h

theorem LastOnWay.at? (h : LastOnWay (place ++ n :: ns) t) (hplace : t.at? place = some d)
    (hn : ns ≠ []) (hmem : n ∈ d.names) : d.names.getLast? = some n := by
  induction place generalizing t with
  | nil =>
      obtain rfl := Option.some.inj hplace
      obtain ⟨u, hu⟩ := Entries.exists_of_mem_keys hmem
      exact (h hn u hu).1
  | cons m place ih =>
      obtain ⟨u, hu, hrest⟩ := Option.bind_eq_some_iff.mp hplace
      exact ih ((lastOnWay_cons_iff (by simp) hu).mp h).2 hrest

/-! ### Insertions that succeed -/

theorem keepsOrder_of_lastOnWay (hd : t.isDir = true) (w : t.WellNamed) (hn : ns ≠ [])
    (hclear : ¬ t.FileAbove ns) (hl : LastOnWay ns t) :
    KeepsOrder t (insertAt mk c depth ns t).1 := by
  intro place d d' hplace hplace' hdir hdir'
  by_cases habove : place <+: ns
  · obtain ⟨rest, rfl⟩ := habove
    cases rest with
    | nil =>
        rw [List.append_nil] at hn hclear hplace'
        rw [at?_insertAt_self hd hn hclear] at hplace'
        obtain rfl := Option.some.inj hplace'
        cases hdir'
    | cons n rest =>
        obtain ⟨v, hv, -, hnames⟩ :
            ∃ v, (insertAt mk c depth (place ++ n :: rest) t).1.at? place = some v ∧
              v.isDir = true ∧ v.names = namesAfter n rest d.names := names_at_insertAt hplace hdir
        obtain rfl := Option.some.inj (hv.symm.trans hplace')
        rw [hnames, onlyAppends_namesAfter_iff (w.at? hplace).nodup_names]
        exact hl.at? hplace
  by_cases hbelow : ns <+: place
  · have hne : ns ≠ place := fun h => habove (h ▸ List.prefix_rfl)
    rw [at?_insertAt_below hd hn hclear hbelow hne] at hplace'
    cases hplace'
  · rw [at?_insertAt_beside habove hbelow, hplace] at hplace'
    obtain rfl := Option.some.inj hplace'
    exact ⟨[], (List.append_nil _).symm, Nat.zero_le 1⟩

theorem lastOnWay_of_keepsOrder (hd : t.isDir = true) (w : t.WellNamed)
    (h : KeepsOrder t (insertAt mk c depth ns t).1) : LastOnWay ns t := by
  induction ns generalizing t depth with
  | nil => trivial
  | cons n ns ih =>
      intro hn u hu
      constructor
      · have htop := h [] t _ rfl rfl hd (isDir_insertAt.trans hd)
        rw [names_insertAt hd, onlyAppends_namesAfter_iff w.nodup_names] at htop
        exact htop hn (mem_names_of_entry hu)
      · cases hdir : u.isDir with
        | false => exact lastOnWay_file ns hdir
        | true =>
            have keeps : KeepsOrder u (insertAt mk c (depth + 1) ns u).1 := by
              intro place d d' hplace hplace'
              refine h (n :: place) d d' ?_ ?_
              · rw [Tree.at?, hu]
                exact hplace
              · rw [at?_insertAt_cons hd, if_pos rfl, hu, arrival_of_ne hn]
                exact hplace'
            exact ih hdir (w.entry? hu) keeps

/-! ### Insertions that fail -/

theorem plain_put_iff {l l' : α} (hk : (Entries.keys es).Nodup) (hu : Entries.get? n es = some u) :
    (Tree.dir l' (Entries.put n v es)).plain = (Tree.dir l es).plain ↔
      (Entries.keys es).getLast? = some n ∧ v.plain = u.plain := by
  constructor
  · intro h
    have hkeys := congrArg Tree.names h
    have hentry := congrArg (Tree.entry? n) h
    unfold plain at hkeys hentry
    rw [names_map, names_map] at hkeys
    rw [entry?_map, entry?_map] at hentry
    constructor
    · show (Tree.dir l es).names.getLast? = some n
      rw [← hkeys]
      show (Entries.keys (Entries.put n v es)).getLast? = some n
      rw [Entries.keys_put, List.getLast?_concat]
    · unfold Tree.entry? entries at hentry
      rw [Entries.get?_put_self, hu] at hentry
      exact Option.some.inj hentry
  · rintro ⟨hlast, hsame⟩
    have hes := Entries.eq_erase_append hk hlast hu
    unfold plain at hsame ⊢
    rw [Entries.put, map, map]
    conv => rhs; rw [hes]
    rw [mapAll_append, mapAll_append, mapAll, mapAll, hsame]
    rfl

theorem plain_insertAt_iff (w : t.WellNamed) (habove : t.FileAbove ns) :
    (insertAt mk c depth ns t).1.plain = t.plain ↔ LastOnWay ns t := by
  induction ns generalizing t depth with
  | nil => exact absurd habove (not_fileAbove_nil t)
  | cons n ns ih =>
      have hn : ns ≠ [] := by
        rintro rfl
        exact not_fileAbove_singleton t n habove
      cases t with
      | file l b =>
          rw [insertAt_file]
          exact iff_of_true rfl (lastOnWay_file _ rfl)
      | dir l es =>
          obtain ⟨u, hu, hbelow⟩ := (fileAbove_cons_iff hn).mp habove
          have hrest : (insertAt mk c (depth + 1) ns u).1.plain = u.plain ↔ LastOnWay ns u := by
            rcases hbelow with hfile | hbelow
            · cases u with
              | file l b =>
                  rw [insertAt_file]
                  exact iff_of_true rfl (lastOnWay_file _ rfl)
              | dir l es => cases hfile
            · exact ih (w.entry? hu) hbelow
          have hget : Entries.get? n es = some u := hu
          rw [insertAt_dir, if_neg hn, arrival_of_ne hn, hget, Option.getD_some,
            lastOnWay_cons_iff hn hu, ← hrest]
          exact plain_put_iff w.nodup_names hget

/-- An insertion keeps the order of what it does not name if, and only if, every entry on its way
stands last already; the same goes for an insertion that fails and the tree it leaves.  In each
directory on the way the name that it takes goes to the end, and nothing changes beside it. -/
theorem insert_order (mk : Nat → α) (path : Path) (c : Bytes) (hd : t.isDir = true)
    (w : t.WellNamed) :
    (∀ t', t.insert mk path c = (t', .ok ()) → (KeepsOrder t t' ↔ LastOnWay path.names t)) ∧
    (∀ t' e, t.insert mk path c = (t', .error e) →
      (t'.plain = t.plain ↔ LastOnWay path.names t)) ∧
    (∀ t' result, t.insert mk path c = (t', result) →
      (∀ place n ns d, path.names = place ++ n :: ns → t.at? place = some d → d.isDir = true →
        ∃ d', t'.at? place = some d' ∧ d'.isDir = true ∧ d'.names = namesAfter n ns d.names) ∧
      (∀ place, ¬ place <+: path.names → ¬ path.names <+: place →
        t'.at? place = t.at? place)) := by
  by_cases hnames : path.names = []
  · rw [insert_of_no_names hnames, hnames]
    refine ⟨fun t' h => ?_, fun t' e h => ?_, fun t' result h => ?_⟩
    · cases h
    · obtain ⟨rfl, -⟩ := Prod.mk.inj h
      exact iff_of_true rfl trivial
    · refine ⟨fun place n ns d hpath => ?_, fun place _ hbelow => absurd List.nil_prefix hbelow⟩
      cases place <;> cases hpath
  refine ⟨fun t' h => ?_, fun t' e h => ?_, fun t' result h => ?_⟩
  · by_cases habove : t.FileAbove path.names
    · rw [insert_of_fileAbove hd hnames habove] at h
      cases h
    · rw [insert_of_clear hd hnames habove] at h
      obtain ⟨rfl, -⟩ := Prod.mk.inj h
      exact ⟨lastOnWay_of_keepsOrder hd w, keepsOrder_of_lastOnWay hd w hnames habove⟩
  · by_cases habove : t.FileAbove path.names
    · rw [insert_of_fileAbove hd hnames habove] at h
      obtain ⟨rfl, -⟩ := Prod.mk.inj h
      exact plain_insertAt_iff w habove
    · rw [insert_of_clear hd hnames habove] at h
      cases h
  · rw [insert_of_names hnames] at h
    obtain ⟨rfl, -⟩ := Prod.mk.inj h
    refine ⟨fun place n ns d hpath hplace hdir => ?_, fun place => at?_insertAt_beside⟩
    rw [hpath]
    exact names_at_insertAt hplace hdir

/-- A directory that is the last entry stays where it is. -/
theorem insert_order_of_last_directory :
    let t : FileTree := .dir () [("b", .file () [2]), ("a", .dir () [("x", .file () [1])])]
    ∃ t', t.insert (fun _ => ()) (.ofString "a/y") [3] = (t', .ok ()) ∧ KeepsOrder t t' := by
  intro t
  have hnames : (Path.ofString "a/y").names = ["a", "y"] := by decide +kernel
  have w : t.WellNamed := by simp [t, WellNamed, WellNamedAll]
  have hlast : LastOnWay (Path.ofString "a/y").names t := by
    rw [hnames]
    exact fun _ u _ => ⟨rfl, fun h => absurd rfl h⟩
  have hinsert : t.insert (fun _ => ()) (.ofString "a/y") [3] =
      ((insertAt (fun _ => ()) [3] 0 ["a", "y"] t).1, .ok ()) := by
    rw [insert_of_names (by simp [hnames]), hnames]
    rfl
  exact ⟨_, hinsert, ((insert_order (fun _ => ()) (.ofString "a/y") [3] (t := t) rfl w).1 _
    hinsert).mpr hlast⟩

/-- A directory that another entry follows goes behind it, and so does a file that is in the way. -/
theorem entry_on_way_moves :
    let t : FileTree := .dir () [("a", .dir () [("x", .file () [1])]), ("b", .file () [2])]
    let u : FileTree := .dir () [("a", .file () [1]), ("b", .file () [2])]
    (∃ t', t.insert (fun _ => ()) (.ofString "a/y") [3] = (t', .ok ()) ∧
      t.names = ["a", "b"] ∧ t'.names = ["b", "a"]) ∧
    (∃ u', u.insert (fun _ => ()) (.ofString "a/y") [3] =
        (u', .error (.belowFile (.ofString "a/y"))) ∧
      u.names = ["a", "b"] ∧ u'.names = ["b", "a"]) := by
  intro t u
  have hnames : (Path.ofString "a/y").names = ["a", "y"] := by decide +kernel
  have hinsert : ∀ s : FileTree, s.insert (fun _ => ()) (.ofString "a/y") [3] =
      ((insertAt (fun _ => ()) [3] 0 ["a", "y"] s).1,
        if (insertAt (fun _ => ()) [3] 0 ["a", "y"] s).2 then .ok ()
          else .error (.belowFile (.ofString "a/y"))) := by
    intro s
    rw [insert_of_names (by simp [hnames]), hnames]
  exact ⟨⟨_, hinsert t, rfl, rfl⟩, ⟨_, hinsert u, rfl, rfl⟩⟩

end Tree

end PackageOutline
