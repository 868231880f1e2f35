import Mathlib.Data.List.Induction
import PackageOutline.Proofs.Tree.Files
import PackageOutline.Proofs.Tree.Inserting

/-! # Trees of listed files

What `Tree.ofFiles` makes of a list of paths and contents.  It fails when a path runs below one
listed before it, but a file also takes the place of a directory that an earlier path made, with all
the files in it.  So a file is kept if no later path is its own or runs above it (`uncovered`).

* `collected_of_ok`: these are the files of the tree, and no path runs below an earlier one.
* `ofFiles_keeps`: all files are kept, in every order, if no path runs below another. -/

namespace PackageOutline

/-- A path leads properly below another. -/
def Path.RunsBelow (q p : Path) : Prop := p.names <+: q.names ∧ p.names ≠ q.names

namespace Tree

variable {files : List (Path × Bytes)} {f : Path × Bytes} {t u : FileTree}
  {es : List (List String × Bytes)} {ns : List String} {c : Bytes}

/-- Files with the names in their paths. -/
def named (files : List (Path × Bytes)) : List (List String × Bytes) :=
  files.map fun f => (f.1.names, f.2)

/-- The files with no path after them that is their own or runs above it. -/
def uncovered : List (List String × Bytes) → List (List String × Bytes)
  | [] => []
  | e :: es => if ∃ g ∈ es, g.1 <+: e.1 then uncovered es else e :: uncovered es

/-- No listed path runs below another. -/
def Apart (files : List (Path × Bytes)) : Prop :=
  ∀ f ∈ files, ∀ g ∈ files, ¬ g.1.RunsBelow f.1

/-- Every path names something and none runs below one before it. -/
def Insertable (files : List (Path × Bytes)) : Prop :=
  (∀ f ∈ files, f.1.names ≠ []) ∧ files.Pairwise fun f g => ¬ g.1.RunsBelow f.1

theorem uncovered_sublist (es : List (List String × Bytes)) : (uncovered es).Sublist es := by
  induction es with
  | nil => exact List.Sublist.slnil
  | cons e es ih =>
      rw [uncovered]
      split
      · exact ih.cons e
      · exact ih.cons_cons e

theorem uncovered_concat (es : List (List String × Bytes)) (e : List String × Bytes) :
    uncovered (es ++ [e]) = (uncovered es).filter (fun g => ¬ e.1 <+: g.1) ++ [e] := by
  induction es with
  | nil => simp [uncovered]
  | cons g es ih =>
      rw [List.cons_append, uncovered, uncovered, ih]
      by_cases hcovered : ∃ k ∈ es, k.1 <+: g.1
      · obtain ⟨k, hk, hle⟩ := hcovered
        rw [if_pos ⟨k, List.mem_append_left _ hk, hle⟩, if_pos ⟨k, hk, hle⟩]
      · by_cases he : e.1 <+: g.1
        · rw [if_pos ⟨e, List.mem_append_right _ (List.mem_singleton_self e), he⟩,
            if_neg hcovered, List.filter_cons, if_neg (by simpa using he)]
        · have hnone : ¬ ∃ k ∈ es ++ [e], k.1 <+: g.1 := by
            rintro ⟨k, hk, hle⟩
            rcases List.mem_append.mp hk with hk | hk
            · exact hcovered ⟨k, hk, hle⟩
            · exact he (List.mem_singleton.mp hk ▸ hle)
          rw [if_neg hnone, if_neg hcovered, List.filter_cons, if_pos (by simpa using he),
            List.cons_append]

theorem exists_uncovered {e : List String × Bytes} (he : e ∈ es) :
    ∃ g ∈ uncovered es, g.1 <+: e.1 := by
  induction es generalizing e with
  | nil => cases he
  | cons h es ih =>
      rw [uncovered]
      split
      · rename_i hcovered
        rcases List.mem_cons.mp he with rfl | he
        · obtain ⟨k, hk, hle⟩ := hcovered
          obtain ⟨g, hg, hkept⟩ := ih hk
          exact ⟨g, hg, hkept.trans hle⟩
        · exact ih he
      · rcases List.mem_cons.mp he with rfl | he
        · exact ⟨e, List.mem_cons_self, List.prefix_rfl⟩
        · obtain ⟨g, hg, hkept⟩ := ih he
          exact ⟨g, List.mem_cons_of_mem _ hg, hkept⟩

theorem mem_uncovered_iff {e : List String × Bytes} : e ∈ uncovered es ↔
    ∃ before after, es = before ++ e :: after ∧ ∀ g ∈ after, ¬ g.1 <+: e.1 := by
  induction es with
  | nil => simp [uncovered]
  | cons h es ih =>
      rw [uncovered]
      constructor
      · intro he
        have htail : e ∈ uncovered es → ∃ before after, h :: es = before ++ e :: after ∧
            ∀ g ∈ after, ¬ g.1 <+: e.1 := by
          intro he
          obtain ⟨before, after, rfl, hfree⟩ := ih.mp he
          exact ⟨h :: before, after, rfl, hfree⟩
        split at he
        · exact htail he
        · rename_i hfree
          rcases List.mem_cons.mp he with rfl | he
          · exact ⟨[], es, rfl, fun g hg hle => hfree ⟨g, hg, hle⟩⟩
          · exact htail he
      · rintro ⟨before, after, hes, hfree⟩
        cases before with
        | nil =>
            obtain ⟨rfl, rfl⟩ := List.cons.inj hes
            rw [if_neg fun ⟨g, hg, hle⟩ => hfree g hg hle]
            exact List.mem_cons_self
        | cons k before =>
            obtain ⟨rfl, rfl⟩ := List.cons.inj hes
            have he := ih.mpr ⟨before, after, rfl, hfree⟩
            split
            · exact he
            · exact List.mem_cons_of_mem _ he

theorem nodup_keys_uncovered (es : List (List String × Bytes)) :
    (Entries.keys (uncovered es)).Nodup := by
  induction es with
  | nil => exact List.nodup_nil
  | cons e es ih =>
      rw [uncovered]
      split
      · exact ih
      · rename_i hfree
        refine List.nodup_cons.mpr ⟨fun hmem => hfree ?_, ih⟩
        obtain ⟨g, hg, hkey⟩ := List.mem_map.mp hmem
        exact ⟨g, (uncovered_sublist es).subset hg, hkey ▸ List.prefix_rfl⟩

/-! ### One file after the other -/

theorem ofFiles_concat (files : List (Path × Bytes)) (f : Path × Bytes) :
    ofFiles (files ++ [f]) = (ofFiles files).bind fun t => t.insert? (fun _ => ()) f.1 f.2 := by
  unfold ofFiles
  simp only [List.foldlM_append, List.foldlM_cons, List.foldlM_nil, bind_pure]
  rfl

theorem named_concat (files : List (Path × Bytes)) (f : Path × Bytes) :
    named (files ++ [f]) = named files ++ [(f.1.names, f.2)] := List.map_append ..

theorem insertable_concat_iff : Insertable (files ++ [f]) ↔
    Insertable files ∧ f.1.names ≠ [] ∧ ∀ g ∈ files, ¬ f.1.RunsBelow g.1 := by
  unfold Insertable
  rw [List.forall_mem_append, List.pairwise_append]
  simp only [List.forall_mem_singleton, List.pairwise_singleton, true_and]
  tauto

/-- The tree of some files: look-up finds those that are not covered. -/
structure Collected (files : List (Path × Bytes)) (t : FileTree) : Prop where
  isDir : t.isDir = true
  wellNamed : t.WellNamed
  found : ∀ ns c, (t.find? ns).bind contents? = some c ↔ (ns, c) ∈ uncovered (named files)

theorem collected_nil : Collected [] (.empty ()) where
  isDir := rfl
  wellNamed := ⟨List.nodup_nil, trivial⟩
  found := by
    intro ns c
    refine iff_of_false (fun h => ?_) (by simp [named, uncovered])
    cases ns with
    | nil => cases h
    | cons n ns =>
        rw [find?_cons] at h
        cases h

theorem Collected.fileAbove_iff (h : Collected files t) (hf : ∀ g ∈ files, g.1.names ≠ [])
    (p : Path) : t.FileAbove p.names ↔ ∃ g ∈ files, p.RunsBelow g.1 := by
  constructor
  · rintro ⟨above, hne, hle, hself, b, hb⟩
    obtain ⟨g, hg, he⟩ := List.mem_map.mp ((uncovered_sublist _).subset ((h.found above b).mp hb))
    obtain ⟨rfl, -⟩ := Prod.mk.inj he
    exact ⟨g, hg, hle, hself⟩
  · rintro ⟨g, hg, hle, hself⟩
    obtain ⟨⟨above, b⟩, hkept, habove⟩ := exists_uncovered (List.mem_map_of_mem (f := fun f =>
      (f.1.names, f.2)) hg)
    have hlisted := (uncovered_sublist _).subset hkept
    obtain ⟨k, hk, he⟩ := List.mem_map.mp hlisted
    obtain ⟨rfl, -⟩ := Prod.mk.inj he
    refine ⟨k.1.names, hf k hk, habove.trans hle, fun heq => hself ?_, b, (h.found _ b).mpr hkept⟩
    exact hle.eq_of_length (Nat.le_antisymm hle.length_le (heq ▸ habove.length_le))

theorem Collected.insertAt (h : Collected files t) (hnames : f.1.names ≠ [])
    (hclear : ¬ t.FileAbove f.1.names) :
    Collected (files ++ [f]) (insertAt (fun _ => ()) f.2 0 f.1.names t).1 where
  isDir := isDir_insertAt.trans h.isDir
  wellNamed := wellNamed_insertAt h.wellNamed
  found := by
    intro ns c
    rw [named_concat, uncovered_concat, List.mem_append, List.mem_filter, List.mem_singleton,
      ← h.found]
    by_cases hns : ns = []
    · subst hns
      refine iff_of_false (fun hc => by cases hc) ?_
      rintro (⟨hc, -⟩ | he)
      · cases hc
      · exact hnames (Prod.mk.inj he).1.symm
    rw [find?_eq_at? hns, find?_eq_at? hns]
    by_cases hself : ns = f.1.names
    · rw [hself, at?_insertAt_self h.isDir hnames hclear]
      simp [contents?, eq_comm]
    have hne : (ns, c) ≠ (f.1.names, f.2) := fun h => hself (Prod.mk.inj h).1
    by_cases hbelow : f.1.names <+: ns
    · rw [at?_insertAt_below h.isDir hnames hclear hbelow (Ne.symm hself)]
      simp [hbelow, hself]
    by_cases habove : ns <+: f.1.names
    · obtain ⟨d, hd, hdir⟩ :
          ∃ d, (Tree.insertAt (fun _ => ()) f.2 0 f.1.names t).1.at? ns = some d ∧
            d.isDir = true := at?_insertAt_above h.isDir hclear habove hself
      rw [hd, Option.bind_some]
      refine iff_of_false (fun hc => ?_) ?_
      · rw [isDir_of_contents hc] at hdir
        cases hdir
      · rintro (⟨hc, -⟩ | he)
        · exact hclear ⟨ns, hns, habove, hself, c, by rwa [find?_eq_at? hns]⟩
        · exact hne he
    · rw [at?_insertAt_beside habove hbelow]
      simp [hbelow, hself]

/-- If files make up a tree, then it is the one of those that are not covered. -/
theorem collected_of_ok (h : ofFiles files = .ok t) : Insertable files ∧ Collected files t := by
  induction files using List.reverseRecOn generalizing t with
  | nil =>
      obtain rfl := Except.ok.inj h
      exact ⟨⟨List.forall_mem_nil _, List.Pairwise.nil⟩, collected_nil⟩
  | append_singleton files f ih =>
      rw [ofFiles_concat] at h
      cases hu : ofFiles files with
      | error e =>
          rw [hu] at h
          cases h
      | ok u =>
          rw [hu] at h
          obtain ⟨hin, hcollected⟩ := ih hu
          obtain ⟨hnames, hclear, rfl⟩ := (insert?_eq_ok_iff hcollected.isDir).mp h
          refine ⟨insertable_concat_iff.mpr ⟨hin, hnames, fun g hg hbelow => hclear ?_⟩,
            hcollected.insertAt hnames hclear⟩
          exact (hcollected.fileAbove_iff hin.1 f.1).mpr ⟨g, hg, hbelow⟩

/-- Files make up a tree when no path runs below one before it. -/
theorem exists_ofFiles (h : Insertable files) : ∃ t, ofFiles files = .ok t := by
  induction files using List.reverseRecOn with
  | nil => exact ⟨_, rfl⟩
  | append_singleton files f ih =>
      obtain ⟨hin, hnames, hfree⟩ := insertable_concat_iff.mp h
      obtain ⟨t, ht⟩ := ih hin
      have hcollected := (collected_of_ok ht).2
      have hclear : ¬ t.FileAbove f.1.names := fun habove => by
        obtain ⟨g, hg, hbelow⟩ := (hcollected.fileAbove_iff hin.1 f.1).mp habove
        exact hfree g hg hbelow
      rw [ofFiles_concat, ht]
      exact ⟨_, (insert?_eq_ok_iff hcollected.isDir).mpr ⟨hnames, hclear, rfl⟩⟩

theorem ofFiles_ok_iff : (∃ t, ofFiles files = .ok t) ↔ Insertable files :=
  ⟨fun ⟨_, ht⟩ => (collected_of_ok ht).1, exists_ofFiles⟩

/-! ### The files of the tree -/

theorem Collected.files_perm (h : Collected files t) : t.files.Perm (uncovered (named files)) := by
  have hkept : (uncovered (named files)).Nodup := (nodup_keys_uncovered _).of_map
  refine (List.perm_ext_iff_of_nodup (nodup_files t h.wellNamed) hkept).mpr fun ⟨ns, c⟩ => ?_
  rw [← h.found]
  constructor
  · intro hmem
    have hc := contents_of_mem_files t h.wellNamed _ hmem
    have hns : ns ≠ [] := by
      rintro rfl
      have hdir := isDir_of_contents hc
      rw [h.isDir] at hdir
      cases hdir
    rwa [find?_eq_at? hns]
  · intro hc
    have hns : ns ≠ [] := by
      rintro rfl
      cases hc
    rw [find?_eq_at? hns] at hc
    exact mem_files_of_contents hc

theorem Collected.fileCount (h : Collected files t) :
    t.fileCount = (uncovered (named files)).length := by
  rw [← length_files, h.files_perm.length_eq]

/-- A file is found at its path if no later path is its own or runs above it. -/
theorem Collected.find_iff (h : Collected files t) (p : Path) (c : Bytes) :
    (t.find? p.names).bind contents? = some c ↔ ∃ before q after,
      files = before ++ (q, c) :: after ∧ q.names = p.names ∧
        ∀ g ∈ after, ¬ g.1.names <+: p.names := by
  rw [h.found, mem_uncovered_iff]
  constructor
  · rintro ⟨before, after, hsplit, hfree⟩
    obtain ⟨before, rest, rfl, -, hrest⟩ := List.map_eq_append_iff.mp hsplit
    obtain ⟨⟨q, b⟩, after, rfl, hq, rfl⟩ := List.map_eq_cons_iff.mp hrest
    obtain ⟨hnames, rfl⟩ := Prod.mk.inj hq
    exact ⟨before, q, after, rfl, hnames, fun g hg => hfree _ (List.mem_map_of_mem hg)⟩
  · rintro ⟨before, q, after, rfl, hnames, hfree⟩
    refine ⟨named before, named after, ?_, fun g hg => ?_⟩
    · rw [named, List.map_append, List.map_cons, hnames]
      rfl
    · obtain ⟨k, hk, rfl⟩ := List.mem_map.mp hg
      exact hfree k hk

theorem Apart.perm {files' : List (Path × Bytes)} (h : Apart files) (hp : files.Perm files') :
    Apart files' := fun f hf g hg => h f (hp.mem_iff.mpr hf) g (hp.mem_iff.mpr hg)

theorem Apart.insertable (h : Apart files) (hnames : ∀ f ∈ files, f.1.names ≠ []) :
    Insertable files :=
  ⟨hnames, List.pairwise_of_forall_mem_list fun f hf g hg => h f hf g hg⟩

/-- Between paths that do not run below one another only repeated ones are covered. -/
theorem uncovered_eq_lastOnly (h : ∀ e ∈ es, ∀ g ∈ es, g.1 <+: e.1 → g.1 = e.1) :
    uncovered es = Entries.lastOnly es := by
  induction es with
  | nil => rfl
  | cons e es ih =>
      have hcovered : (∃ g ∈ es, g.1 <+: e.1) ↔ e.1 ∈ Entries.keys es := by
        constructor
        · rintro ⟨g, hg, hle⟩
          rw [← h e List.mem_cons_self g (List.mem_cons_of_mem _ hg) hle]
          exact List.mem_map_of_mem hg
        · intro hmem
          obtain ⟨g, hg, hkey⟩ := List.mem_map.mp hmem
          exact ⟨g, hg, hkey ▸ List.prefix_rfl⟩
      rw [uncovered, Entries.lastOnly, ih fun e he g hg =>
        h e (List.mem_cons_of_mem _ he) g (List.mem_cons_of_mem _ hg)]
      by_cases hmem : e.1 ∈ Entries.keys es
      · rw [if_pos (hcovered.mpr hmem), if_pos hmem]
      · rw [if_neg (mt hcovered.mp hmem), if_neg hmem]

theorem Apart.eq_of_prefix (h : Apart files) : ∀ e ∈ named files, ∀ g ∈ named files,
    g.1 <+: e.1 → g.1 = e.1 := by
  intro e he g hg hle
  obtain ⟨f, hf, rfl⟩ := List.mem_map.mp he
  obtain ⟨k, hk, rfl⟩ := List.mem_map.mp hg
  by_contra hne
  exact h k hk f hf ⟨hle, hne⟩

theorem keys_named (files : List (Path × Bytes)) :
    Entries.keys (named files) = files.map fun f => f.1.names := by
  simp [Entries.keys, named, Function.comp_def]

theorem apart_of_orders (h : ∀ files', files.Perm files' → Insertable files') : Apart files := by
  intro f hf g hg hbelow
  have hg' : g ∈ files.erase f := (List.mem_erase_of_ne fun he => hbelow.2 (by rw [he])).mpr hg
  have hp : files.Perm (f :: g :: (files.erase f).erase g) :=
    (List.perm_cons_erase hf).trans ((List.perm_cons_erase hg').cons f)
  exact (List.pairwise_cons.mp (h _ hp).2).1 g List.mem_cons_self hbelow

/-- Which files a tree made of listed files keeps.  Those that no later path covers; all whose paths
are not repeated, in every order, when no path runs below another. -/
theorem ofFiles_keeps (files : List (Path × Bytes)) :
    ((∃ t, ofFiles files = .ok t) ↔ Insertable files) ∧
    (∀ t, ofFiles files = .ok t →
      (∀ (p : Path) c, (t.find? p.names).bind contents? = some c ↔ ∃ before q after,
        files = before ++ (q, c) :: after ∧ q.names = p.names ∧
          ∀ g ∈ after, ¬ g.1.names <+: p.names) ∧
      t.fileCount = (uncovered (named files)).length ∧
      (Apart files →
        (∀ before (p : Path) c after, files = before ++ (p, c) :: after →
          p.names ∉ after.map (fun g => g.1.names) →
            (t.find? p.names).bind contents? = some c) ∧
        t.fileCount = (files.map fun f => f.1.names).dedup.length)) ∧
    ((∀ files', files.Perm files' → ∃ t, ofFiles files' = .ok t) ↔
      (∀ f ∈ files, f.1.names ≠ []) ∧ Apart files) := by
  refine ⟨ofFiles_ok_iff, fun t ht => ?_, ?_⟩
  · have hcollected := (collected_of_ok ht).2
    refine ⟨hcollected.find_iff, hcollected.fileCount, fun hapart => ⟨?_, ?_⟩⟩
    · rintro before p c after rfl hlast
      refine (hcollected.find_iff p c).mpr ⟨before, p, after, rfl, rfl, fun g hg hle => hlast ?_⟩
      refine List.mem_map.mpr ⟨g, hg, ?_⟩
      by_contra hne
      -- otherwise the later path runs above this one
      exact hapart g (by simp [hg]) (p, c) (by simp) ⟨hle, hne⟩
    · rw [hcollected.fileCount, uncovered_eq_lastOnly hapart.eq_of_prefix, ← keys_named,
        ← Entries.keys_lastOnly]
      exact (List.length_map _).symm
  · constructor
    · intro horders
      have hin : ∀ files', files.Perm files' → Insertable files' :=
        fun files' hp => ofFiles_ok_iff.mp (horders files' hp)
      exact ⟨(hin files (.refl _)).1, apart_of_orders hin⟩
    · rintro ⟨hnames, hapart⟩ files' hp
      exact exists_ofFiles ((hapart.perm hp).insertable fun f hf => hnames f (hp.mem_iff.mpr hf))

/-- Of two files at one path the last is kept, beside a third one. -/
theorem ofFiles_keeps_repeated_path :
    let files : List (Path × Bytes) :=
      [(.ofString "a/b", [1]), (.ofString "c", [2]), (.ofString "./a//b", [3])]
    Apart files ∧ ∃ t, ofFiles files = .ok t ∧ (t.find? ["a", "b"]).bind contents? = some [3] ∧
      t.fileCount = 2 := by
  intro files
  have hnames : files.map (fun f => f.1.names) = [["a", "b"], ["c"], ["a", "b"]] := by
    decide +kernel
  have hnonempty : ∀ f ∈ files, f.1.names ≠ [] := by decide +kernel
  have hapart : Apart files := by
    unfold Apart Path.RunsBelow
    decide +kernel
  obtain ⟨-, hkept, horders⟩ := ofFiles_keeps files
  obtain ⟨t, ht⟩ := horders.mpr ⟨hnonempty, hapart⟩ files (.refl _)
  obtain ⟨hfound, hcount⟩ := (hkept t ht).2.2 hapart
  refine ⟨hapart, t, ht, ?_, ?_⟩
  · have hlast := hfound [_, _] (.ofString "./a//b") [3] [] rfl (List.not_mem_nil)
    have hpath : (Path.ofString "./a//b").names = ["a", "b"] := by decide +kernel
    rwa [hpath] at hlast
  · rw [hcount, hnames]
    rfl

/-- A file takes the place of a directory and of the file in it, and in the other order it is in
the way. -/
theorem file_lost_below_file :
    let files : List (Path × Bytes) := [(.ofString "a/b", [1]), (.ofString "a", [2])]
    (files.map fun f => f.1.names).Nodup ∧
      (∃ t, ofFiles files = .ok t ∧ t.find? (Path.ofString "a/b").names = none ∧ t.fileCount = 1) ∧
      ofFiles files.reverse = .error (.belowFile (.ofString "a/b")) := by
  intro files
  have hb : (Path.ofString "a/b").names = ["a", "b"] := by decide +kernel
  have ha : (Path.ofString "a").names = ["a"] := by decide +kernel
  refine ⟨?_, ⟨.dir () [("a", .file () [2])], ?_, ?_, rfl⟩, ?_⟩
  · simp [files, hb, ha]
  · simp only [files, ofFiles, List.foldlM_cons, List.foldlM_nil, insert?, insert, hb, ha]
    rfl
  · rw [hb]
    rfl
  · simp only [files, ofFiles, List.reverse_cons, List.reverse_nil, List.nil_append,
      List.cons_append, List.foldlM_cons, List.foldlM_nil, insert?, insert, hb, ha]
    rfl

end Tree

end PackageOutline
