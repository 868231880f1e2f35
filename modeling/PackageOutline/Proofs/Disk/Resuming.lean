import PackageOutline.Proofs.Disk.Operations

/-! # Operations on disks with less on them

What the system asks of an operation below a directory is little: it must take the path, and at the
place of the path there must be nothing of the other kind.  So when the operations of writing a tree end
well on a disk, they also end well on one that has less on it, if nothing refuses them there
(`performs_of_extends`).  A disk on which operations were interrupted has less on it before. -/

namespace PackageOutline

namespace Disk

variable {α β : Type} {isSame : Tree β → Tree α → Bool} {previous : Option (Tree β)} {t : Tree α}
  {op : Operation} {ops : List Operation} {d d' e e' : Disk} {q root : Path} {n : String}
  {c : Bytes} {place : List Bytes}

/-- The disk with no fault to come. -/
def faultless (d : Disk) : Disk := { d with faults := [] }

@[simp] theorem top_faultless (d : Disk) : d.faultless.top = d.top := rfl

@[simp] theorem faults_faultless (d : Disk) : d.faultless.faults = [] := rfl

/-! ### More and less -/

/-- Of two disks the second has what the first has, but for the contents of files. -/
theorem extends_iff_view : Extends (fun _ => True) d e ↔ ∀ place,
    (d.view place = .directory → e.view place = .directory) ∧
      ∀ c, d.view place = .file c → ∃ c', e.view place = .file c' := by
  constructor
  · refine fun h place => ⟨fun hdir => ?_, fun c hc => ?_⟩
    · obtain ⟨es, hes⟩ := DiskNode.view_eq_directory_iff.mp hdir
      obtain ⟨m, hm, hkind⟩ := h.stays hes
      cases m with
      | file b => cases hkind
      | dir fs => exact DiskNode.view_eq_directory_iff.mpr ⟨fs, hm⟩
    · obtain ⟨m, hm, hkind⟩ := h.stays (DiskNode.view_eq_file_iff.mp hc)
      cases m with
      | file b => exact ⟨b, DiskNode.view_eq_file_iff.mpr hm⟩
      | dir fs => cases hkind
  · refine fun h => ⟨@fun place m hm => ?_, fun hno => absurd trivial hno⟩
    cases m with
    | dir es =>
        obtain ⟨fs, hfs⟩ := DiskNode.view_eq_directory_iff.mp
          ((h place).1 (DiskNode.view_eq_directory_iff.mpr ⟨es, hm⟩))
        exact ⟨_, hfs, rfl⟩
    | file b =>
        obtain ⟨b', hb'⟩ := (h place).2 b (DiskNode.view_eq_file_iff.mpr hm)
        exact ⟨_, DiskNode.view_eq_file_iff.mp hb', rfl⟩

theorem Operation.extends {r : Except IoError Unit} (hx : exec op.change d = (r, d')) :
    Extends (fun _ => True) d d' := by
  cases op with
  | makeDirs p => exact (altered_makeDirs p hx).toExtends.mono fun _ => trivial
  | setFile p c => exact (altered_setFile p c hx).toExtends.mono fun _ => trivial

theorem Operation.calm (op : Operation) : Always Calm op.change := by
  cases op with
  | makeDirs p => exact calm_makeDirs p
  | setFile p c => exact calm_setFile p c

theorem Operation.extends_of_ok (h : Extends (fun _ => True) d e)
    (hd : exec op.change d = (.ok (), d')) (he : exec op.change e = (.ok (), e')) :
    Extends (fun _ => True) d' e' := by
  rw [extends_iff_view] at h ⊢
  intro place
  by_cases ht : op.Touches place
  · rw [op.view_of_ok hd ht, op.view_of_ok he ht]
    exact ⟨id, fun c hc => ⟨c, hc⟩⟩
  · rw [op.view_of_not_touched hd ht, op.view_of_not_touched he ht]
    exact h place

theorem Performs.extends (h : Performs ops d d') : Extends (fun _ => True) d d' := by
  induction h with
  | nil => exact .refl _ _
  | cons hop _ ih => exact (Operation.extends hop).trans ih

theorem Stops.extends {x : DiskError} (h : Stops ops d x d') : Extends (fun _ => True) d d' := by
  induction h with
  | here hop => exact Operation.extends hop
  | later hop _ ih => exact (Operation.extends hop).trans ih

theorem Performs.calm (h : Performs ops d d') : Calm d d' := by
  induction h with
  | nil => exact id
  | @cons op ops _ _ _ hop _ ih => exact fun hd => ih (op.calm hop hd)

theorem Performs.extends_of_extends (hd : Performs ops d d') (he : Performs ops e e')
    (h : Extends (fun _ => True) d e) : Extends (fun _ => True) d' e' := by
  induction hd generalizing e with
  | nil =>
      cases he
      exact h
  | cons hop _ ih =>
      cases he with
      | cons hop' hrest => exact ih hrest (Operation.extends_of_ok h hop hop')

/-! ### Below a directory -/

theorem bytes_join_ne_nil (hn : Identifier.isValid n = true) :
    (q.join (Utf8.encode n)).bytes ≠ [] := by
  obtain ⟨hname, hslash⟩ := Path.piece_of_isValid hn
  refine (Path.bytes_join q (fun hempty => ?_) hslash).1
  rw [hempty] at hname
  cases hname

theorem target_join (h : d.isDir q = true) (hn : Identifier.isValid n = true) (hf : Fits q [n]) :
    d.target (q.join (Utf8.encode n)) =
      .ok { parent := q.place, name := some (Utf8.encode n), slash := false } := by
  obtain ⟨hr, es, hes⟩ := resolve_of_isDir h
  obtain ⟨hname, hslash⟩ := Path.piece_of_isValid hn
  have hne : Utf8.encode n ≠ [] := by
    intro hempty
    rw [hempty] at hname
    cases hname
  have hlen : ¬ maxName < (Utf8.encode n).length :=
    Nat.not_lt.mpr (hf.2 n (List.mem_singleton_self n))
  have hreverse : (q.join (Utf8.encode n)).pieces.reverse = Utf8.encode n :: q.stem.reverse := by
    rw [q.pieces_join hslash, List.reverse_concat]
  have hlast : (Utf8.encode n :: q.stem.reverse).dropWhile (· = []) =
      Utf8.encode n :: q.stem.reverse := List.dropWhile_cons_of_neg (by simpa using hne)
  unfold target
  refine bind_eq_ok.mpr ⟨(), hf.1, ?_⟩
  simp only [hreverse, hlast]
  rw [List.reverse_reverse]
  refine bind_eq_ok.mpr ⟨_, walk_stem hr hes, ?_⟩
  simp only [hes, hname, hlen, Bool.not_true, Bool.false_eq_true, if_false, List.head?_cons,
    Option.some.injEq, hne, decide_false]
  rfl

theorem exec_change_ok {f : Disk → Except IoError Disk} (hd : d.faults = []) (hf : f d = .ok d') :
    exec (change f) d = (.ok (), d') := by
  obtain ⟨top, faults⟩ := d
  obtain rfl : faults = [] := hd
  unfold change
  rw [exec_mk]
  simp only [List.head?_nil, Option.join_none, List.tail_nil, hf]

theorem exec_setFile_join (hd : d.faults = []) (h : d.isDir q = true)
    (hn : Identifier.isValid n = true) (hf : Fits q [n])
    (hfree : d.view (q.join (Utf8.encode n)).place ≠ .directory) (c : Bytes) :
    ∃ d', exec (setFile (q.join (Utf8.encode n)) c) d = (.ok (), d') := by
  rw [q.place_join hn] at hfree
  refine ⟨d.put q.place (Utf8.encode n) (.file c), exec_change_ok hd ?_⟩
  refine bind_eq_ok.mpr ⟨_, target_join h hn hf, ?_⟩
  simp only [Bool.false_eq_true, if_false]
  split
  · rename_i es hes
    exact absurd (DiskNode.view_eq_directory_iff.mpr ⟨es, hes⟩) hfree
  · rfl

theorem exec_makeDirs_join (hd : d.faults = []) (h : d.isDir q = true)
    (hn : Identifier.isValid n = true) (hf : Fits q [n])
    (hfree : ∀ c, d.view (q.join (Utf8.encode n)).place ≠ .file c) :
    ∃ d', exec (makeDirs (q.join (Utf8.encode n))) d = (.ok (), d') := by
  obtain ⟨hr, es, hes⟩ := resolve_of_isDir h
  rw [q.place_join hn] at hfree
  cases hfind : d.top.find? (q.place ++ [Utf8.encode n]) with
  | none =>
      have hmake : exec (makeDir (q.join (Utf8.encode n))) d =
          (.ok (), d.put q.place (Utf8.encode n) (.dir [])) := by
        refine exec_change_ok hd (bind_eq_ok.mpr ⟨_, target_join h hn hf, ?_⟩)
        simp only [hfind, Option.isSome_none, Bool.false_eq_true, if_false]
        rfl
      refine ⟨d.put q.place (Utf8.encode n) (.dir []), ?_⟩
      unfold makeDirs makeDirsWith
      split
      · rename_i hempty
        exact absurd (List.isEmpty_iff.mp hempty) (checkPath_eq_ok.mp hf.1).2.1
      · rw [exec_tryCatch, hmake]
  | some m =>
      cases m with
      | file b => exact absurd (DiskNode.view_eq_file_iff.mpr hfind) (hfree b)
      | dir fs =>
          have hm := hfind
          rw [DiskNode.find?_concat hes] at hm
          have hthere := resolve_join hr hes hn (hf.2 n (List.mem_singleton_self n)) hm hf.1
          exact ⟨d, exec_makeDirs_of_stands hd (.inr (isDir_iff.mpr ⟨_, fs, hthere, hfind⟩))⟩

/-- When an operation in a directory ends well on a disk, it ends well on one with less on it, if nothing
refuses it there. -/
theorem Operation.exec_of_extends (h : Extends (fun _ => True) d e) (hd : d.faults = [])
    (hdir : d.isDir q = true) (hn : Identifier.isValid n = true)
    (hop : op = .makeDirs (q.join (Utf8.encode n)) ∨ ∃ c, op = .setFile (q.join (Utf8.encode n)) c)
    (he : exec op.change e = (.ok (), e')) : ∃ d', exec op.change d = (.ok (), d') := by
  have hview := extends_iff_view.mp (h.trans (Operation.extends he))
    (q.join (Utf8.encode n)).place
  rcases hop with rfl | ⟨c, rfl⟩
  · have hthere := (exec_makeDirs_ok he).resolve_left (bytes_join_ne_nil hn)
    obtain ⟨hr, -⟩ := resolve_of_isDir hthere
    refine exec_makeDirs_join hd hdir hn (fits_of_resolve (Path.names_singleton hn) hr) ?_
    intro c hc
    obtain ⟨c', hc'⟩ := hview.2 c hc
    rw [view_onWay hthere (Path.onWay_place _)] at hc'
    cases hc'
  · rcases exec_setFile he with ⟨⟨x, hx⟩, -⟩ | ⟨-, hc, -⟩
    · cases hx
    · obtain ⟨_, hr, -⟩ := contentsAt_eq_ok.mp hc
      refine exec_setFile_join hd hdir hn (fits_of_resolve (Path.names_singleton hn) hr) ?_ c
      intro hfree
      have hsome := hview.1 hfree
      rw [view_of_contentsAt hc] at hsome
      cases hsome

mutual

/-- When writing a tree in a directory ends well on a disk, it ends well on one with less on it, if
nothing refuses it there. -/
theorem performs_of_extends (isSame : Tree β → Tree α → Bool) : ∀ (t : Tree α)
    {previous : Option (Tree β)} {q : Path} {n : String} {d e e' : Disk}, t.Storable →
    Identifier.isValid n = true → Extends (fun _ => True) d e → d.faults = [] →
    d.isDir q = true → Performs (operations isSame previous t (q.join (Utf8.encode n))) e e' →
      ∃ d', Performs (operations isSame previous t (q.join (Utf8.encode n))) d d'
  | .file l c, previous, q, n, d, e, e', _, hn, h, hd, hdir, he => by
    by_cases hsame : previous.bind Tree.contents? = some c
    · rw [operations, if_pos hsame]
      exact ⟨d, .nil⟩
    · rw [operations, if_neg hsame] at he ⊢
      cases he with
      | cons hop _ =>
          obtain ⟨d', hd'⟩ := Operation.exec_of_extends h hd hdir hn (.inr ⟨c, rfl⟩) hop
          exact ⟨d', .cons hd' .nil⟩
  | .dir l es, previous, q, n, d, e, e', st, hn, h, hd, hdir, he => by
    rw [Tree.Storable] at st
    by_cases hsame : previous.any (isSame · (.dir l es)) = true
    · rw [operations, if_pos hsame]
      exact ⟨d, .nil⟩
    · rw [operations, if_neg hsame] at he ⊢
      cases he with
      | cons hop hrest =>
          obtain ⟨d₁, hd₁⟩ := Operation.exec_of_extends h hd hdir hn (.inl rfl) hop
          obtain ⟨d', hd'⟩ := performsAll_of_extends isSame es st
            (Operation.extends_of_ok h hd₁ hop) (Operation.calm _ hd₁ hd)
            ((exec_makeDirs_ok hd₁).resolve_left (bytes_join_ne_nil hn)) hrest
          exact ⟨d', .cons hd₁ hd'⟩

/-- When writing entries of a directory ends well on a disk, it ends well on one with less on it, if
nothing refuses it there. -/
theorem performsAll_of_extends (isSame : Tree β → Tree α → Bool) : ∀ (es : List (String × Tree α))
    {previous : Option (Tree β)} {p : Path} {d e e' : Disk}, Tree.StorableAll es →
    Extends (fun _ => True) d e → d.faults = [] → d.isDir p = true →
    Performs (operationsAll isSame previous es p) e e' →
      ∃ d', Performs (operationsAll isSame previous es p) d d'
  | [], previous, p, d, e, e', _, _, _, _, _ => ⟨d, by rw [operationsAll]; exact .nil⟩
  | (n, t) :: es, previous, p, d, e, e', st, h, hd, hdir, he => by
    rw [Tree.StorableAll] at st
    obtain ⟨hvalid, -, ht, hes⟩ := st
    rw [operationsAll] at he ⊢
    obtain ⟨e₁, hfirst, hrest⟩ := performs_append.mp he
    obtain ⟨d₁, hd₁⟩ := performs_of_extends isSame t ht hvalid h hd hdir hfirst
    obtain ⟨d', hd'⟩ := performsAll_of_extends isSame es hes (hd₁.extends_of_extends hfirst h)
      (hd₁.calm hd) (hd₁.extends.isDir hdir) hrest
    exact ⟨d', performs_append.mpr ⟨d₁, hd₁, hd'⟩⟩

end

/-- When writing a directory ends well on a disk, it ends well on one that has less on it but the
directory itself, if nothing refuses it there. -/
theorem performs_root_of_extends (ht : t.Storable) (htop : t.isDir = true)
    (h : Extends (fun _ => True) d e) (hd : d.faults = []) (hdir : d.isDir root = true)
    (he : Performs (operations isSame previous t root) e e') :
    ∃ d', Performs (operations isSame previous t root) d d' := by
  cases t with
  | file l c => cases htop
  | dir l es =>
      rw [Tree.Storable] at ht
      by_cases hsame : previous.any (isSame · (.dir l es)) = true
      · rw [operations, if_pos hsame]
        exact ⟨d, .nil⟩
      · rw [operations, if_neg hsame] at he ⊢
        cases he with
        | cons hop hrest =>
            have hmade : exec (Operation.makeDirs root).change d = (.ok (), d) :=
              exec_makeDirs_of_stands hd (.inr hdir)
            obtain ⟨d', hd'⟩ := performsAll_of_extends isSame es ht
              (Operation.extends_of_ok h hmade hop) hd hdir hrest
            exact ⟨d', .cons hmade hd'⟩

end Disk

end PackageOutline
