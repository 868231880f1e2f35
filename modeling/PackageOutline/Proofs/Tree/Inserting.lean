import PackageOutline.Proofs.Entries
import PackageOutline.Proofs.Tree.Listing
import PackageOutline.Tree.Edit

/-! # Inserting files

What `Tree.insert` does to a tree, at each place.  Inserting fails when a file stands above the path
(`arrived_iff`).  Beside the path nothing changes (`at?_insertAt_beside`), at the path stands the file
(`at?_insertAt_self`), and the directories above it are there (`at?_insertAt_above`).

`Tree.insert_find` is what this comes to for looking up, with the number of files. -/

namespace PackageOutline

namespace Tree

variable {α : Type} {t u : Tree α} {es : List (String × Tree α)} {n : String}
  {ns place : List String} {mk : Nat → α} {c : Bytes} {depth : Nat} {path : Path}

/-- A regular file stands above a path. -/
def FileAbove (t : Tree α) (ns : List String) : Prop :=
  ∃ above, above ≠ [] ∧ above <+: ns ∧ above ≠ ns ∧ ∃ b, (t.find? above).bind contents? = some b

theorem exists_contents (h : t.isDir = false) : ∃ b, t.contents? = some b := by
  cases t with
  | file l b => exact ⟨b, rfl⟩
  | dir l es => cases h

theorem isDir_of_contents {b : Bytes} (h : t.contents? = some b) : t.isDir = false := by
  cases t with
  | file l b => rfl
  | dir l es => cases h

theorem not_fileAbove_singleton (t : Tree α) (n : String) : ¬ t.FileAbove [n] := by
  rintro ⟨above, hne, hle, hself, -⟩
  obtain ⟨m, above, rfl⟩ := List.exists_cons_of_ne_nil hne
  obtain ⟨rfl, hnil⟩ := List.cons_prefix_cons.mp hle
  obtain rfl := List.prefix_nil.mp hnil
  exact hself rfl

theorem fileAbove_cons_iff (hn : ns ≠ []) : t.FileAbove (n :: ns) ↔
    ∃ u, t.entry? n = some u ∧ (u.isDir = false ∨ u.FileAbove ns) := by
  constructor
  · rintro ⟨above, hne, hle, hself, b, hb⟩
    obtain ⟨m, above, rfl⟩ := List.exists_cons_of_ne_nil hne
    obtain ⟨rfl, hbelow⟩ := List.cons_prefix_cons.mp hle
    rw [find?_cons] at hb
    obtain ⟨v, hv, hcontents⟩ := Option.bind_eq_some_iff.mp hb
    obtain ⟨u, hu, hplace⟩ := Option.bind_eq_some_iff.mp hv
    refine ⟨u, hu, ?_⟩
    by_cases hnil : above = []
    · subst hnil
      obtain rfl := Option.some.inj hplace
      exact .inl (isDir_of_contents hcontents)
    · refine .inr ⟨above, hnil, hbelow, fun h => hself (by rw [h]), b, ?_⟩
      rw [find?_eq_at? hnil, hplace]
      exact hcontents
  · rintro ⟨u, hu, hdir | ⟨above, hne, hle, hself, b, hb⟩⟩
    · obtain ⟨b, hb⟩ := exists_contents hdir
      refine ⟨[n], List.cons_ne_nil _ _, List.cons_prefix_cons.mpr ⟨rfl, List.nil_prefix⟩,
        fun h => hn (List.cons.inj h).2.symm, b, ?_⟩
      rw [find?_singleton, hu]
      exact hb
    · refine ⟨n :: above, List.cons_ne_nil _ _, List.cons_prefix_cons.mpr ⟨rfl, hle⟩,
        fun h => hself (List.cons.inj h).2, b, ?_⟩
      rw [find?_cons, hu, Option.bind_some, ← find?_eq_at? hne]
      exact hb

/-! ### One level -/

/-- What stands at the first name of a path after an insertion, out of what stood there before. -/
def arrival (mk : Nat → α) (c : Bytes) (depth : Nat) (ns : List String) (u : Option (Tree α)) :
    Tree α :=
  if ns = [] then .file (mk (depth + 1)) c
  else (insertAt mk c (depth + 1) ns (u.getD (empty (mk (depth + 1))))).1

theorem arrival_nil (u : Option (Tree α)) : arrival mk c depth [] u = .file (mk (depth + 1)) c :=
  if_pos rfl

theorem arrival_of_ne (hn : ns ≠ []) (u : Option (Tree α)) : arrival mk c depth ns u =
    (insertAt mk c (depth + 1) ns (u.getD (empty (mk (depth + 1))))).1 := if_neg hn

theorem insertAt_dir (l : α) : (insertAt mk c depth (n :: ns) (.dir l es)).1 = .dir (mk depth)
    (if ns = [] then Entries.set n (arrival mk c depth ns (Entries.get? n es)) es
      else Entries.put n (arrival mk c depth ns (Entries.get? n es)) es) := by
  cases ns with
  | nil => simp [insertAt, arrival]
  | cons m ns => simp [insertAt, arrival]

theorem insertAt_file (l : α) (b : Bytes) :
    insertAt mk c depth ns (.file l b) = (.file l b, false) := by
  cases ns with
  | nil => rfl
  | cons n ns => cases ns <;> rfl

/-- An insertion changes one entry of a directory. -/
theorem entry?_insertAt (hd : t.isDir = true) (m : String) :
    Tree.entry? m (insertAt mk c depth (n :: ns) t).1 =
      if m = n then some (arrival mk c depth ns (t.entry? n)) else t.entry? m := by
  cases t with
  | file l b => cases hd
  | dir l es =>
      rw [insertAt_dir]
      show Entries.get? m (if ns = [] then _ else _) = if m = n then _ else Entries.get? m es
      by_cases hm : m = n
      · subst hm
        rw [if_pos rfl]
        split
        · exact Entries.get?_set_self ..
        · exact Entries.get?_put_self ..
      · rw [if_neg hm]
        split
        · exact Entries.get?_set_of_ne hm ..
        · exact Entries.get?_put_of_ne hm ..

theorem isDir_insertAt : (insertAt mk c depth ns t).1.isDir = t.isDir := by
  cases t with
  | file l b => rw [insertAt_file]
  | dir l es =>
      cases ns with
      | nil => rfl
      | cons n ns => rw [insertAt_dir]; rfl

theorem at?_insertAt_cons (hd : t.isDir = true) (m : String) (place : List String) :
    (insertAt mk c depth (n :: ns) t).1.at? (m :: place) =
      if m = n then (arrival mk c depth ns (t.entry? n)).at? place else t.at? (m :: place) := by
  rw [Tree.at?, entry?_insertAt hd, Tree.at?]
  split <;> rfl

theorem arrived_cons (l : α) (hn : ns ≠ []) : (insertAt mk c depth (n :: ns) (.dir l es)).2 =
    (insertAt mk c (depth + 1) ns ((Entries.get? n es).getD (empty (mk (depth + 1))))).2 := by
  obtain ⟨m, ns, rfl⟩ := List.exists_cons_of_ne_nil hn
  rfl

theorem not_fileAbove_empty (l : α) (ns : List String) : ¬ (empty l).FileAbove ns := by
  rintro ⟨above, hne, -, -, b, hb⟩
  obtain ⟨n, above, rfl⟩ := List.exists_cons_of_ne_nil hne
  rw [find?_cons] at hb
  cases hb

theorem clear_below (hn : ns ≠ []) (hclear : ¬ t.FileAbove (n :: ns)) (l : α) :
    ((t.entry? n).getD (empty l)).isDir = true ∧ ¬ ((t.entry? n).getD (empty l)).FileAbove ns := by
  rw [fileAbove_cons_iff hn] at hclear
  cases hu : t.entry? n with
  | none => exact ⟨rfl, not_fileAbove_empty l ns⟩
  | some u =>
      refine ⟨?_, fun h => hclear ⟨u, hu, .inr h⟩⟩
      by_contra hdir
      exact hclear ⟨u, hu, .inl (by simpa using hdir)⟩

/-- A file arrives unless one stands above it. -/
theorem arrived_iff (hd : t.isDir = true) (hn : ns ≠ []) :
    (insertAt mk c depth ns t).2 = true ↔ ¬ t.FileAbove ns := by
  induction ns generalizing t depth with
  | nil => exact absurd rfl hn
  | cons n ns ih =>
      cases t with
      | file l b => cases hd
      | dir l es =>
          by_cases hns : ns = []
          · subst hns
            exact iff_of_true rfl (not_fileAbove_singleton _ n)
          · rw [arrived_cons l hns, fileAbove_cons_iff hns]
            show _ ↔ ¬ ∃ u, Entries.get? n es = some u ∧ _
            cases hu : Entries.get? n es with
            | none =>
                rw [Option.getD_none, ih rfl hns]
                exact iff_of_true (not_fileAbove_empty _ ns) (by simp)
            | some u =>
                rw [Option.getD_some]
                cases hdir : u.isDir with
                | false =>
                    cases u with
                    | file l b =>
                        rw [insertAt_file]
                        simp [hdir]
                    | dir l es => cases hdir
                | true =>
                    rw [ih hdir hns]
                    simp [hdir]

/-! ### Places -/

/-- At the path stands the file. -/
theorem at?_insertAt_self (hd : t.isDir = true) (hn : ns ≠ []) (hclear : ¬ t.FileAbove ns) :
    (insertAt mk c depth ns t).1.at? ns = some (.file (mk (depth + ns.length)) c) := by
  induction ns generalizing t depth with
  | nil => exact absurd rfl hn
  | cons n ns ih =>
      rw [at?_insertAt_cons hd, if_pos rfl]
      by_cases hns : ns = []
      · subst hns
        rw [arrival_nil]
        rfl
      · obtain ⟨hdir, hbelow⟩ := clear_below hns hclear (mk (depth + 1))
        rw [arrival_of_ne hns, ih hdir hns hbelow, List.length_cons, Nat.add_right_comm, Nat.add_assoc]

/-- Above the path stand directories. -/
theorem at?_insertAt_above (hd : t.isDir = true) (hclear : ¬ t.FileAbove ns) (hle : place <+: ns)
    (hne : place ≠ ns) :
    ∃ d, (insertAt mk c depth ns t).1.at? place = some d ∧ d.isDir = true := by
  induction ns generalizing t depth place with
  | nil => exact absurd (List.prefix_nil.mp hle) hne
  | cons n ns ih =>
      cases place with
      | nil => exact ⟨_, rfl, isDir_insertAt.trans hd⟩
      | cons m place =>
          obtain ⟨rfl, hrest⟩ := List.cons_prefix_cons.mp hle
          have hself : place ≠ ns := fun h => hne (by rw [h])
          have hns : ns ≠ [] := by
            rintro rfl
            exact hself (List.prefix_nil.mp hrest)
          obtain ⟨hdir, hbelow⟩ := clear_below hns hclear (mk (depth + 1))
          rw [at?_insertAt_cons hd, if_pos rfl, arrival_of_ne hns]
          exact ih hdir hbelow hrest hself

/-- Beside the path nothing changes, whether the file arrives or not. -/
theorem at?_insertAt_beside (habove : ¬ place <+: ns) (hbelow : ¬ ns <+: place) :
    (insertAt mk c depth ns t).1.at? place = t.at? place := by
  induction ns generalizing t depth place with
  | nil => exact absurd List.nil_prefix hbelow
  | cons n ns ih =>
      cases place with
      | nil => exact absurd List.nil_prefix habove
      | cons m place =>
          cases t with
          | file l b => rw [insertAt_file]
          | dir l es =>
              rw [at?_insertAt_cons rfl]
              split
              · rename_i hm
                subst hm
                rw [List.cons_prefix_cons, not_and] at habove hbelow
                have hne : place ≠ [] := by
                  rintro rfl
                  exact habove rfl List.nil_prefix
                have hns : ns ≠ [] := by
                  rintro rfl
                  exact hbelow rfl List.nil_prefix
                rw [arrival_of_ne hns, ih (habove rfl) (hbelow rfl), Tree.at?]
                cases Tree.entry? m (Tree.dir l es) with
                | some u => rfl
                | none =>
                    obtain ⟨k, place, rfl⟩ := List.exists_cons_of_ne_nil hne
                    rfl
              · rfl

theorem at?_insertAt_below (hd : t.isDir = true) (hn : ns ≠ []) (hclear : ¬ t.FileAbove ns)
    (hle : ns <+: place) (hne : ns ≠ place) : (insertAt mk c depth ns t).1.at? place = none := by
  obtain ⟨rest, rfl⟩ := hle
  cases rest with
  | nil => exact absurd (List.append_nil ns).symm hne
  | cons m rest =>
      rw [at?_append, at?_insertAt_self hd hn hclear]
      rfl

/-! ### Names and numbers of files -/

theorem wellNamed_insertAt (w : t.WellNamed) : (insertAt mk c depth ns t).1.WellNamed := by
  induction ns generalizing t depth with
  | nil => cases t <;> exact w
  | cons n ns ih =>
      cases t with
      | file l b =>
          rw [insertAt_file]
          exact w
      | dir l es =>
          rw [WellNamed, wellNamedAll_iff] at w
          have harrival : (arrival mk c depth ns (Entries.get? n es)).WellNamed := by
            unfold arrival
            split
            · trivial
            · refine ih ?_
              cases hu : Entries.get? n es with
              | none => exact ⟨List.nodup_nil, trivial⟩
              | some u => exact w.2 _ (Entries.mem_of_get? hu)
          rw [insertAt_dir, WellNamed, wellNamedAll_iff]
          split
          · refine ⟨Entries.nodup_keys_set w.1 _ _, fun e he => ?_⟩
            rcases Entries.mem_set he with rfl | he
            · exact harrival
            · exact w.2 e he
          · refine ⟨Entries.nodup_keys_put w.1 _ _, fun e he => ?_⟩
            rcases Entries.mem_put he with rfl | he
            · exact harrival
            · exact w.2 e he

theorem fileCountAll_append (es fs : List (String × Tree α)) :
    fileCountAll (es ++ fs) = fileCountAll es + fileCountAll fs := by
  induction es with
  | nil => simp [fileCountAll]
  | cons e es ih =>
      obtain ⟨n, t⟩ := e
      rw [List.cons_append, fileCountAll, fileCountAll, ih, Nat.add_assoc]

theorem fileCountAll_set (n : String) (u : Tree α) (es : List (String × Tree α)) :
    fileCountAll (Entries.set n u es) + (Entries.get? n es).elim 0 fileCount =
      fileCountAll es + u.fileCount := by
  induction es with
  | nil => simp [Entries.set, Entries.get?, fileCountAll]
  | cons e es ih =>
      obtain ⟨m, t⟩ := e
      rw [Entries.set, Entries.get?]
      split
      · rw [fileCountAll, fileCountAll, Option.elim_some]
        omega
      · rw [fileCountAll, fileCountAll]
        omega

theorem fileCountAll_erase (hk : (Entries.keys es).Nodup) :
    fileCountAll (Entries.erase n es) + (Entries.get? n es).elim 0 fileCount =
      fileCountAll es := by
  induction es with
  | nil => rfl
  | cons e es ih =>
      obtain ⟨m, t⟩ := e
      rw [Entries.keys_cons, List.nodup_cons] at hk
      have hrest := ih hk.2
      rw [← List.singleton_append, Entries.erase_append, fileCountAll_append, fileCountAll_append,
        List.singleton_append, Entries.get?]
      by_cases hm : m = n
      · subst hm
        have hfirst : Entries.erase m [(m, t)] = [] := by simp [Entries.erase]
        rw [Entries.get?_eq_none_iff.mpr hk.1, Option.elim_none] at hrest
        rw [hfirst, if_pos rfl, Option.elim_some]
        simp only [fileCountAll]
        omega
      · have hfirst : Entries.erase n [(m, t)] = [(m, t)] := by simp [Entries.erase, hm]
        rw [hfirst, if_neg hm]
        omega

theorem fileCountAll_put (hk : (Entries.keys es).Nodup) (n : String) (u : Tree α) :
    fileCountAll (Entries.put n u es) + (Entries.get? n es).elim 0 fileCount =
      fileCountAll es + u.fileCount := by
  have herase := fileCountAll_erase (n := n) hk
  rw [Entries.put, fileCountAll_append]
  simp only [fileCountAll]
  omega

/-- One file is new, and those that stood at the path or below it are gone. -/
theorem fileCount_insertAt (hd : t.isDir = true) (w : t.WellNamed) (hn : ns ≠ [])
    (hclear : ¬ t.FileAbove ns) :
    (insertAt mk c depth ns t).1.fileCount + (t.at? ns).elim 0 fileCount = t.fileCount + 1 := by
  induction ns generalizing t depth with
  | nil => exact absurd rfl hn
  | cons n ns ih =>
      cases t with
      | file l b => cases hd
      | dir l es =>
          rw [WellNamed] at w
          have harrival : (arrival mk c depth ns (Entries.get? n es)).fileCount +
              ((Entries.get? n es).bind (at? ns)).elim 0 fileCount =
                (Entries.get? n es).elim 0 fileCount + 1 := by
            by_cases hns : ns = []
            · subst hns
              rw [arrival_nil, fileCount_file]
              cases Entries.get? n es with
              | none => rfl
              | some u => exact Nat.add_comm ..
            · obtain ⟨hdir, hbelow⟩ := clear_below hns hclear (mk (depth + 1))
              rw [arrival_of_ne hns]
              unfold Tree.entry? entries at hdir hbelow
              cases hu : Entries.get? n es with
              | none =>
                  rw [hu] at hdir hbelow
                  obtain ⟨m, ns, rfl⟩ := List.exists_cons_of_ne_nil hns
                  exact ih hdir ⟨List.nodup_nil, trivial⟩ hns hbelow
              | some u =>
                  rw [hu] at hdir hbelow
                  exact ih hdir (wellNamed_of_get? w.2 hu) hns hbelow
          rw [insertAt_dir]
          show _ + ((Entries.get? n es).bind (at? ns)).elim 0 fileCount = _
          split
          · have hset := fileCountAll_set n (arrival mk c depth ns (Entries.get? n es)) es
            rw [fileCount, fileCount]
            omega
          · have hput := fileCountAll_put w.1 n (arrival mk c depth ns (Entries.get? n es))
            rw [fileCount, fileCount]
            omega

/-! ### Insertion and look-up -/

theorem insert_of_names (hnames : path.names ≠ []) : t.insert mk path c =
    ((insertAt mk c 0 path.names t).1,
      if (insertAt mk c 0 path.names t).2 then .ok () else .error (.belowFile path)) := by
  obtain ⟨n, ns, h⟩ := List.exists_cons_of_ne_nil hnames
  unfold insert
  rw [h]

theorem insert_of_no_names (hnames : path.names = []) :
    t.insert mk path c = (t, .error .emptyPath) := by
  unfold insert
  rw [hnames]

/-- An insertion where no file stands above the path. -/
theorem insert_of_clear (hd : t.isDir = true) (hnames : path.names ≠ [])
    (hclear : ¬ t.FileAbove path.names) :
    t.insert mk path c = ((insertAt mk c 0 path.names t).1, .ok ()) := by
  rw [insert_of_names hnames, if_pos ((arrived_iff hd hnames).mpr hclear)]

/-- An insertion where a file stands above the path. -/
theorem insert_of_fileAbove (hd : t.isDir = true) (hnames : path.names ≠ [])
    (habove : t.FileAbove path.names) :
    t.insert mk path c = ((insertAt mk c 0 path.names t).1, .error (.belowFile path)) := by
  rw [insert_of_names hnames, if_neg fun h => (arrived_iff hd hnames).mp h habove]

theorem insert?_eq_ok_iff (hd : t.isDir = true) : t.insert? mk path c = .ok u ↔
    path.names ≠ [] ∧ ¬ t.FileAbove path.names ∧ (insertAt mk c 0 path.names t).1 = u := by
  unfold insert?
  by_cases hnames : path.names = []
  · rw [insert_of_no_names hnames]
    exact iff_of_false (fun h => by cases h) fun h => h.1 hnames
  by_cases habove : t.FileAbove path.names
  · rw [insert_of_fileAbove hd hnames habove]
    exact iff_of_false (fun h => by cases h) fun h => h.2.1 habove
  · rw [insert_of_clear hd hnames habove]
    exact ⟨fun h => ⟨hnames, habove, Except.ok.inj h⟩, fun h => congrArg Except.ok h.2.2⟩

theorem not_fileAbove_nil (t : Tree α) : ¬ t.FileAbove [] := by
  rintro ⟨above, hne, hle, -⟩
  exact hne (List.prefix_nil.mp hle)

/-- What look-up finds in a tree after a file was inserted at a path. -/
structure Inserted (path : Path) (c : Bytes) (t t' : Tree α) : Prop where
  self : (t'.find? path.names).bind contents? = some c
  above : ∀ ns, ns ≠ [] → ns <+: path.names → ns ≠ path.names →
    ∃ d, t'.find? ns = some d ∧ d.isDir = true
  beside : ∀ q : Path, ¬ q.names <+: path.names → ¬ path.names <+: q.names →
    t'.find? q.names = t.find? q.names
  below : ∀ q : Path, path.names <+: q.names → path.names ≠ q.names → t'.find? q.names = none
  /-- The files that stood at the path or below it are gone. -/
  count : t'.fileCount + (t.find? path.names).elim 0 fileCount = t.fileCount + 1

theorem inserted_insertAt (hd : t.isDir = true) (w : t.WellNamed) (hnames : path.names ≠ [])
    (hclear : ¬ t.FileAbove path.names) :
    Inserted path c t (insertAt mk c 0 path.names t).1 where
  self := by
    rw [find?_eq_at? hnames, at?_insertAt_self hd hnames hclear]
    rfl
  above := by
    intro ns hne hle hself
    rw [find?_eq_at? hne]
    exact at?_insertAt_above hd hclear hle hself
  beside := by
    intro q habove hbelow
    have hq : q.names ≠ [] := fun h => habove (h ▸ List.nil_prefix)
    rw [find?_eq_at? hq, find?_eq_at? hq]
    exact at?_insertAt_beside habove hbelow
  below := by
    intro q hle hne
    have hq : q.names ≠ [] := fun h => hnames (List.prefix_nil.mp (h ▸ hle))
    rw [find?_eq_at? hq]
    exact at?_insertAt_below hd hnames hclear hle hne
  count := by
    rw [find?_eq_at? hnames]
    exact fileCount_insertAt hd w hnames hclear

/-- An insertion into a directory fails for the empty path and below a file, and otherwise look-up
agrees with it: for every path it finds the new file, a directory above it, nothing below it, or
what it found before. -/
theorem insert_find (mk : Nat → α) (path : Path) (c : Bytes) (hd : t.isDir = true)
    (w : t.WellNamed) :
    ((t.insert mk path c).2 = .error .emptyPath ↔ path.names = []) ∧
    ((t.insert mk path c).2 = .error (.belowFile path) ↔ t.FileAbove path.names) ∧
    (path.names ≠ [] → ¬ t.FileAbove path.names →
      ∃ t', t.insert mk path c = (t', .ok ()) ∧ Inserted path c t t') := by
  by_cases hnames : path.names = []
  · rw [insert_of_no_names hnames]
    refine ⟨iff_of_true rfl hnames, iff_of_false (by simp) ?_, fun h => absurd hnames h⟩
    rw [hnames]
    exact not_fileAbove_nil t
  by_cases habove : t.FileAbove path.names
  · rw [insert_of_fileAbove hd hnames habove]
    exact ⟨iff_of_false (by simp) hnames, iff_of_true rfl habove, fun _ h => absurd habove h⟩
  · rw [insert_of_clear hd hnames habove]
    exact ⟨iff_of_false (by simp) hnames, iff_of_false (by simp) habove,
      fun _ _ => ⟨_, rfl, inserted_insertAt hd w hnames habove⟩⟩

/-- A file in place of a directory, at a path that is not written the shortest way. -/
theorem insert_find_of_replaced_directory :
    let t : FileTree := .dir () [("src", .dir () [("Lib", .dir () [("a", .file () [1]),
      ("b", .file () [2])])]), ("c", .file () [3])]
    ∃ t', t.insert (fun _ => ()) (.ofString "./src/..//Lib") [4] = (t', .ok ()) ∧
      Inserted (.ofString "./src/..//Lib") [4] t t' ∧ t.fileCount = 3 ∧ t'.fileCount = 2 := by
  intro t
  have hnames : (Path.ofString "./src/..//Lib").names = ["src", "Lib"] := by decide +kernel
  have w : t.WellNamed := by simp [t, WellNamed, WellNamedAll]
  have harrived : (insertAt (fun _ => ()) [4] 0 ["src", "Lib"] t).2 = true := rfl
  have hclear : ¬ t.FileAbove (Path.ofString "./src/..//Lib").names := by
    rw [hnames]
    exact (arrived_iff rfl (by simp)).mp harrived
  obtain ⟨t', ht, hin⟩ := (insert_find (fun _ => ()) (.ofString "./src/..//Lib") [4] (t := t)
    rfl w).2.2 (by simp [hnames]) hclear
  refine ⟨t', ht, hin, rfl, ?_⟩
  have hcount := hin.count
  rw [hnames] at hcount
  exact Nat.add_right_cancel hcount

end Tree

end PackageOutline
