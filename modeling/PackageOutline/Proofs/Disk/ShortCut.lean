import PackageOutline.Proofs.Disk.Exact

/-! # The short cut for directories

Writing passes over directories that count as the same as what was there.  As long as none of them
stands for something else (`Disk.tells`), this makes no difference but in time
(`exec_writeWith_never`, `view_eq_of_holds`).

`writeTree_exact` says all that writing a tree does. -/

namespace PackageOutline

namespace Disk

variable {α β : Type} {isSame : Tree β → Tree α → Bool} {previous : Option (Tree β)} {t : Tree α}
  {es : List (String × Tree α)} {d d' d₁ d₂ : Disk} {p : Path} {place : List Bytes}

/-! ### Runs that end alike -/

/-- Two runs that end alike and leave the same disk. -/
def SameOutcome {γ : Type} (x y : Except DiskError γ × Log) : Prop :=
  x.1 = y.1 ∧ x.2.disk = y.2.disk

section

variable {γ δ : Type} {s₁ s₂ : Log}

theorem SameOutcome.bind {x y : Writing γ} {f g : γ → Writing δ}
    (h : SameOutcome (exec x s₁) (exec y s₂))
    (hfg : ∀ a t₁ t₂, exec x s₁ = (.ok a, t₁) → t₁.disk = t₂.disk →
      SameOutcome (exec (f a) t₁) (exec (g a) t₂)) :
    SameOutcome (exec (x >>= f) s₁) (exec (y >>= g) s₂) := by
  rcases hx : exec x s₁ with ⟨e | a, t₁⟩
  · rcases hy : exec y s₂ with ⟨r, t₂⟩
    rw [hx, hy] at h
    obtain ⟨rfl, hdisk⟩ := h
    rw [exec_bind_of_error hx, exec_bind_of_error hy]
    exact ⟨rfl, hdisk⟩
  · rcases hy : exec y s₂ with ⟨r, t₂⟩
    rw [hx, hy] at h
    obtain ⟨rfl, hdisk⟩ := h
    rw [exec_bind_of_ok hx, exec_bind_of_ok hy]
    exact hfg a t₁ t₂ hx hdisk

theorem sameOutcome_apply (hd : s₁.disk = s₂.disk) (action : DiskAction) (p : Path)
    (f : Path → Change Unit) :
    SameOutcome (exec (apply action p f) s₁) (exec (apply action p f) s₂) := by
  rw [exec_apply, exec_apply, hd]
  exact ⟨rfl, rfl⟩

theorem sameOutcome_note (hd : s₁.disk = s₂.disk) (level : Level) (text : String) :
    SameOutcome (exec (note level text) s₁) (exec (note level text) s₂) := ⟨rfl, hd⟩

end

/-! ### Changes that nothing refuses -/

/-- When no fault was to come, none is to come now. -/
def Calm (d d' : Disk) : Prop := d.faults = [] → d'.faults = []

instance : IsPreorder Disk Calm where
  refl _ h := h
  trans _ _ _ h h' hd := h' (h hd)

theorem calm_change {f : Disk → Except IoError Disk}
    (hf : ∀ d d', f d = .ok d' → d'.faults = d.faults) : Always Calm (change f) := by
  intro d r d' hx hd
  unfold change at hx
  rw [exec_mk] at hx
  simp only [hd, List.head?_nil, Option.join_none, List.tail_nil] at hx
  split at hx
  · rename_i d'' hd''
    obtain ⟨-, rfl⟩ := Prod.mk.inj hx
    rw [hf _ _ hd'']
  · obtain ⟨-, rfl⟩ := Prod.mk.inj hx
    rfl

theorem calm_setFile (p : Path) (c : Bytes) : Always Calm (setFile p c) := by
  refine calm_change fun d d' hf => ?_
  obtain ⟨t, -, hf⟩ := bind_eq_ok.mp hf
  split at hf
  · cases hf
  · by_cases hslash : t.slash = true
    · rw [if_pos hslash] at hf
      cases hf
    · rw [if_neg hslash] at hf
      split at hf
      · cases hf
      · obtain rfl := Except.ok.inj hf
        rfl

theorem calm_makeDirs (p : Path) : Always Calm (makeDirs p) := by
  refine always_makeDirs (fun p => calm_change fun d d' hf => ?_) p
  obtain ⟨t, -, hf⟩ := bind_eq_ok.mp hf
  split at hf
  · cases hf
  · split at hf
    · cases hf
    · obtain rfl := Except.ok.inj hf
      rfl

theorem target_of_isDir (h : d.isDir p = true) : ∃ t, d.target p = .ok t ∧
    ∀ name, t.name = some name → (d.top.find? (t.parent ++ [name])).isSome = true := by
  obtain ⟨place, es, hr, hes⟩ := isDir_iff.mp h
  unfold resolve at hr
  obtain ⟨_, hcheck, hw⟩ := bind_eq_ok.mp hr
  cases hrev : p.pieces.reverse.dropWhile (· = []) with
  | nil =>
      refine ⟨{ parent := [], name := none, slash := true }, ?_, fun name h => by cases h⟩
      unfold target
      refine bind_eq_ok.mpr ⟨(), hcheck, ?_⟩
      simp only [hrev]
      rfl
  | cons last above =>
      rw [eq_append_of_dropWhile hrev, walk_append] at hw
      obtain ⟨parent, hparent, hw⟩ := bind_eq_ok.mp hw
      obtain ⟨place₁, hstep, -⟩ := bind_eq_ok.mp hw
      obtain ⟨fs, hfs, -⟩ := step_eq_ok.mp hstep
      by_cases hname : Path.isName last = true
      · obtain ⟨gs, hgs, hlen, hhas, -⟩ := (step_name hname).mp hstep
        refine ⟨{ parent, name := some last, slash := p.pieces.reverse.head? = some [] }, ?_, ?_⟩
        · unfold target
          refine bind_eq_ok.mpr ⟨(), hcheck, ?_⟩
          simp only [hrev]
          refine bind_eq_ok.mpr ⟨parent, hparent, ?_⟩
          simp only [hfs, hname, Nat.not_lt.mpr hlen, Bool.not_true, Bool.false_eq_true, if_false]
          rfl
        · rintro name hlast
          obtain rfl := Option.some.inj hlast
          rw [DiskNode.find?_concat hgs]
          exact hhas
      · refine ⟨{ parent, name := none, slash := p.pieces.reverse.head? = some [] }, ?_,
          fun name h => by cases h⟩
        unfold target
        refine bind_eq_ok.mpr ⟨(), hcheck, ?_⟩
        simp only [hrev]
        refine bind_eq_ok.mpr ⟨parent, hparent, ?_⟩
        rw [Bool.not_eq_true] at hname
        simp only [hfs, hname, Bool.not_false, if_true]
        rfl

theorem exec_change_of_calm {f : Disk → Except IoError Disk} {e : IoError} (hd : d.faults = [])
    (hf : f d = .error e) : exec (change f) d = (.error e, d) := by
  obtain ⟨top, faults⟩ := d
  obtain rfl : faults = [] := hd
  unfold change
  rw [exec_mk]
  simp only [List.head?_nil, Option.join_none, List.tail_nil, hf]

theorem exec_makeDir_of_isDir (hd : d.faults = []) (h : d.isDir p = true) :
    exec (makeDir p) d = (.error .alreadyExists, d) := by
  obtain ⟨⟨parent, name, slash⟩, ht, hthere⟩ := target_of_isDir h
  refine exec_change_of_calm hd ?_
  rw [ht]
  cases name with
  | none => rfl
  | some name =>
      show (if (d.top.find? (parent ++ [name])).isSome then throw IoError.alreadyExists
        else pure (d.put parent name (.dir [])) : Except IoError Disk) = _
      rw [if_pos (hthere name rfl)]
      rfl

theorem exec_makeDirs_of_stands (hd : d.faults = []) (h : p.bytes = [] ∨ d.isDir p = true) :
    exec (makeDirs p) d = (.ok (), d) := by
  unfold makeDirs makeDirsWith
  by_cases hempty : p.bytes = []
  · rw [if_pos (List.isEmpty_iff.mpr hempty)]
    rfl
  · have hdir := h.resolve_left hempty
    rw [if_neg (by simpa using hempty), exec_tryCatch, exec_makeDir_of_isDir hd hdir]
    simp only [reduceCtorEq, if_false]
    rw [exec_bind_of_ok (exec_get d), if_pos hdir]
    rfl

mutual

/-- Without the short cut, writing a tree that is on disk, and that the tree before equals, does
nothing. -/
theorem exec_writeWith_idle : ∀ (t : Tree α) {previous : Option (Tree β)} {p : Path} {s : Log},
    t.WellNamed → previous.map Tree.plain = some t.plain → Holds s.disk p t → s.disk.faults = [] →
      SameOutcome (exec (writeWith (fun _ _ => false) previous t p) s)
        (.ok { unchanged := t.fileCount }, s)
  | .file l c, previous, p, s, _, hplain, _, _ => by
    have hsame : previous.bind Tree.contents? = some c := by
      obtain ⟨u, rfl, hu⟩ := Option.map_eq_some_iff.mp hplain
      have hc := congrArg Tree.contents? hu
      rwa [Tree.plain, Tree.plain, Tree.contents?_map, Tree.contents?_map] at hc
    rw [writeWith, exec_ite, if_pos hsame, Tree.fileCount_file]
    exact ⟨rfl, rfl⟩
  | .dir l es, previous, p, s, w, hplain, h, hd => by
    rw [Tree.WellNamed] at w
    rw [writeWith, exec_ite, if_neg (by cases previous <;> simp), Tree.fileCount]
    have htop : p.bytes = [] ∨ s.disk.isDir p = true := h [] _ rfl
    have hmake : exec (apply .makeDir p makeDirs) s = (.ok (), s) := by
      rw [exec_apply, exec_makeDirs_of_stands hd htop]
      rfl
    rw [exec_bind_of_ok hmake]
    refine exec_writeEntries_idle es w.1 w.2 (fun n u hu => ⟨?_, h.entry hu⟩) hd
    obtain ⟨a, rfl, ha⟩ := Option.map_eq_some_iff.mp hplain
    have hentry := congrArg (Tree.entry? n) ha
    rw [Tree.plain, Tree.plain, Tree.entry?_map, Tree.entry?_map] at hentry
    have hu : Tree.entry? n (Tree.dir l es) = some u := hu
    rw [hu] at hentry
    exact hentry

theorem exec_writeEntries_idle : ∀ (es : List (String × Tree α)) {previous : Option (Tree β)}
    {p : Path} {s : Log}, (Entries.keys es).Nodup → Tree.WellNamedAll es →
      (∀ n t, Entries.get? n es = some t →
        (previous.bind fun a => a.entry? n).map Tree.plain = some t.plain ∧
          Holds s.disk (p.join (Utf8.encode n)) t) → s.disk.faults = [] →
      SameOutcome (exec (writeEntries (fun _ _ => false) previous es p) s)
        (.ok { unchanged := Tree.fileCountAll es }, s)
  | [], previous, p, s, _, _, _, _ => by
    rw [writeEntries]
    exact ⟨rfl, rfl⟩
  | (m, t) :: es, previous, p, s, hk, w, h, hd => by
    rw [Entries.keys_cons, List.nodup_cons] at hk
    rw [Tree.WellNamedAll] at w
    obtain ⟨hplain, hholds⟩ := h m t (by rw [Entries.get?, if_pos rfl])
    have hfirst := exec_writeWith_idle t w.1 hplain hholds hd
    rw [writeEntries]
    rcases hx : exec (writeWith (fun _ _ => false) (previous.bind fun a => a.entry? m) t
      (p.join (Utf8.encode m))) s with ⟨r, s₁⟩
    rw [hx] at hfirst
    obtain ⟨rfl, hdisk⟩ := hfirst
    simp only at hdisk
    have hrest := exec_writeEntries_idle es (s := s₁) hk.2 w.2
      (fun n u hu => hdisk ▸ h n u (get?_tail hk.1 hu)) (hdisk ▸ hd)
    rw [exec_bind_of_ok hx]
    rcases hy : exec (writeEntries (fun _ _ => false) previous es p) s₁ with ⟨r, s₂⟩
    rw [hy] at hrest
    obtain ⟨rfl, hdisk'⟩ := hrest
    rw [exec_bind_of_ok hy]
    exact ⟨rfl, hdisk'.trans hdisk⟩

end

/-- When no fault was to come, writing has left none to come. -/
def CalmLog (s s' : Log) : Prop := Calm s.disk s'.disk

instance : IsPreorder Log CalmLog where
  refl s := refl (r := Calm) s.disk
  trans _ _ _ h h' := IsTrans.trans (r := Calm) _ _ _ h h'

theorem calm_apply {f : Path → Change Unit} (hf : Always Calm (f p)) (action : DiskAction) :
    Always CalmLog (apply action p f) := by
  intro s r s' hx
  rw [exec_apply] at hx
  obtain ⟨-, rfl⟩ := Prod.mk.inj hx
  exact hf (Prod.eta (exec (f p) s.disk)).symm

theorem calm_note (level : Level) (text : String) : Always CalmLog (note level text) := by
  intro s r s' hx
  obtain ⟨-, rfl⟩ := Prod.mk.inj hx
  exact id

mutual

theorem calm_writeWith (isSame : Tree β → Tree α → Bool) : ∀ (t : Tree α)
    (previous : Option (Tree β)) (p : Path), Always CalmLog (writeWith isSame previous t p)
  | .file l c, previous, p => by
    rw [writeWith]
    split
    · exact .pure _
    · exact (calm_apply (calm_setFile p c) .write).bind fun _ =>
        (calm_note _ _).bind fun _ => .pure _
  | .dir l es, previous, p => by
    rw [writeWith]
    split
    · exact (calm_note _ _).bind fun _ => .pure _
    · exact (calm_apply (calm_makeDirs p) .makeDir).bind fun _ =>
        calm_writeEntries isSame es previous p

theorem calm_writeEntries (isSame : Tree β → Tree α → Bool) : ∀ (es : List (String × Tree α))
    (previous : Option (Tree β)) (p : Path), Always CalmLog (writeEntries isSame previous es p)
  | [], previous, p => by
    rw [writeEntries]
    exact .pure _
  | (n, t) :: es, previous, p => by
    rw [writeEntries]
    exact (calm_writeWith isSame t _ _).bind fun _ =>
      (calm_writeEntries isSame es previous p).bind fun _ => .pure _

end

mutual

/-- When no fault is to come, the short cut makes no difference to the result or to the disk. -/
theorem exec_writeWith_never (isSame : Tree β → Tree α → Bool) : ∀ (t : Tree α)
    {previous : Option (Tree β)} {p : Path} {s₁ s₂ : Log}, t.Storable →
      Kept s₁.disk p previous → tells isSame previous t = true → s₁.disk.faults = [] →
        s₁.disk = s₂.disk → SameOutcome (exec (writeWith isSame previous t p) s₁)
          (exec (writeWith (fun _ _ => false) previous t p) s₂)
  | .file l c, previous, p, s₁, s₂, _, _, _, _, hs => by
    rw [writeWith, writeWith, exec_ite, exec_ite]
    split
    · exact ⟨rfl, hs⟩
    · refine (sameOutcome_apply hs _ _ _).bind fun _ t₁ t₂ _ ht => ?_
      exact (sameOutcome_note ht _ _).bind fun _ u₁ u₂ _ hu => ⟨rfl, hu⟩
  | .dir l es, previous, p, s₁, s₂, st, k, htell, hd, hs => by
    have w := Tree.Storable.wellNamed _ st
    rw [Tree.Storable] at st
    rw [writeWith, exec_ite]
    split
    · rename_i hsame
      obtain ⟨a, rfl, ha⟩ := (Option.any_eq_true ..).mp hsame
      have hplain := plain_of_tells htell ha
      have hholds : Holds s₂.disk p (Tree.dir l es) := hs ▸ (k a rfl).2.of_plain hplain
      have hprevious : (some a).map Tree.plain = some (Tree.dir l es).plain := congrArg some hplain
      have hidle := exec_writeWith_idle (Tree.dir l es) w hprevious hholds (hs ▸ hd)
      rw [exec_bind_of_ok (exec_note ..)]
      exact ⟨hidle.1.symm, hs.trans hidle.2.symm⟩
    · rw [writeWith, exec_ite, if_neg (by cases previous <;> simp)]
      refine (sameOutcome_apply hs _ _ _).bind fun _ t₁ t₂ hmake ht => ?_
      have k₁ := k.later (adds_makeDirs p (exec_apply_eq_ok hmake))
      exact exec_writeEntries_never isSame es st (fun n _ => k₁.entry n) (tells_entries htell)
        (calm_apply (calm_makeDirs p) .makeDir hmake hd) ht

theorem exec_writeEntries_never (isSame : Tree β → Tree α → Bool) :
    ∀ (es : List (String × Tree α)) {previous : Option (Tree β)} {p : Path} {s₁ s₂ : Log},
      Tree.StorableAll es →
      (∀ n ∈ Entries.keys es, Kept s₁.disk (p.join (Utf8.encode n))
        (previous.bind fun a => a.entry? n)) →
      tellsAll isSame previous es = true → s₁.disk.faults = [] → s₁.disk = s₂.disk →
        SameOutcome (exec (writeEntries isSame previous es p) s₁)
          (exec (writeEntries (fun _ _ => false) previous es p) s₂)
  | [], previous, p, s₁, s₂, _, _, _, _, hs => by
    rw [writeEntries, writeEntries]
    exact ⟨rfl, hs⟩
  | (m, t) :: es, previous, p, s₁, s₂, st, k, htell, hd, hs => by
    rw [Tree.StorableAll] at st
    obtain ⟨hvalid, hfresh, ht, hes⟩ := st
    rw [tellsAll, Bool.and_eq_true] at htell
    rw [writeEntries, writeEntries]
    have hfirst := exec_writeWith_never isSame t ht (k m List.mem_cons_self) htell.1 hd hs
    refine hfirst.bind fun _ t₁ t₂ hx hdisk => ?_
    have a := exec_writeWith_altered isSame t ht hx
    have k₁ : ∀ n ∈ Entries.keys es, Kept t₁.disk (p.join (Utf8.encode n))
        (previous.bind fun a => a.entry? n) := by
      intro n hn
      have hne : m ≠ n := fun h => hfresh (h ▸ hn)
      exact (k n (List.mem_cons_of_mem m hn)).beside hne hvalid (hes.valid hn) ht a
    have hrest := exec_writeEntries_never isSame es hes k₁ htell.2
      (calm_writeWith isSame t _ _ hx hd) hdisk
    exact hrest.bind fun _ u₁ u₂ _ hu => ⟨rfl, hu⟩

end

/-! ### Two runs that end well -/

theorem view_top (d : Disk) : d.view [] ≠ .nothing := by
  unfold view
  rw [DiskNode.find?]
  cases d.top <;> simp [DiskNode.view]

theorem view_opened (hd : d₂.Holds p t) (ho : Opened t p place) (hnone : d₁.view place = .nothing) :
    d₂.view place = .directory := by
  have empty : ∀ {q : Path}, q.bytes = [] → ¬ q.OnWay place := by
    rintro q hempty ⟨ps, hps, rfl⟩
    have hidle : ∀ piece ∈ ps, Path.isIdle piece = true := by
      intro piece hmem
      have hpiece := hps.subset hmem
      rw [Path.pieces, hempty, List.splitOn_nil, List.mem_singleton] at hpiece
      rw [hpiece]
      rfl
    rw [Path.lead_idle hidle] at hnone
    exact view_top d₁ hnone
  have seen : ∀ {q : Path}, (q.bytes = [] ∨ d₂.isDir q = true) → q.OnWay place →
      d₂.view place = .directory := by
    rintro q (hempty | hdir) hway
    · exact absurd hway (empty hempty)
    · exact view_onWay hdir hway
  rcases ho with ⟨hdir, hway⟩ | ⟨ns, u, hu, hdir, rfl⟩
  · have htop := hd [] t rfl
    cases t with
    | file l c => cases hdir
    | dir l es => exact seen htop hway
  · have htop := hd ns u hu
    cases u with
    | file l c => cases hdir
    | dir l es => exact seen htop (Path.onWay_place _)

theorem view_written {c : Bytes} (hd : d.Holds p t) (hw : Written t p place c) :
    d.view place = .file c := by
  obtain ⟨ns, hc, rfl⟩ := hw
  obtain ⟨u, hu, hc⟩ := Option.bind_eq_some_iff.mp hc
  have hstands := hd ns u hu
  cases u with
  | dir l es => cases hc
  | file l b =>
      obtain rfl := Option.some.inj hc
      exact view_of_contentsAt hstands

/-- Disks that looked alike look alike again when a tree is on both, and only its places were
altered. -/
theorem view_eq_of_holds {d₁' d₂' : Disk} (hview : ∀ place, d₁.view place = d₂.view place)
    (a₁ : Altered (Written t p) (Opened t p) d₁ d₁') (a₂ : Altered (Written t p) (Opened t p) d₂ d₂')
    (h₁ : d₁'.Holds p t) (h₂ : d₂'.Holds p t) (place : List Bytes) :
    d₁'.view place = d₂'.view place := by
  rcases a₁ place with hsame | ⟨c, hw, -, hfile⟩ | ⟨ho, hnone, hdir⟩
  · rcases a₂ place with hsame' | ⟨c, hw, -, hfile⟩ | ⟨ho, hnone, hdir⟩
    · rw [hsame, hsame', hview]
    · rw [hfile, view_written h₁ hw]
    · rw [hdir, view_opened h₁ ho hnone]
  · rw [hfile, view_written h₂ hw]
  · rw [hdir, view_opened h₂ ho hnone]

/-! ### All that writing does -/

mutual

theorem tells_never : ∀ (t : Tree α) (previous : Option (Tree β)),
    tells (fun _ _ => false) previous t = true
  | .file _ _, _ => by rw [tells]
  | .dir _ es, previous => by
    rw [tells, tellsAll_never es previous]
    simp

theorem tellsAll_never : ∀ (es : List (String × Tree α)) (previous : Option (Tree β)),
    tellsAll (fun _ _ => false) previous es = true
  | [], _ => by rw [tellsAll]
  | (_, t) :: es, previous => by
    rw [tellsAll, tells_never t, tellsAll_never es, Bool.and_self]

end

/-- Writing a tree, however it ends, leaves everything as it is but for files of the tree, which get
their contents, and missing directories of the tree or on the way, which are made.  Let the tree before
be on disk, and no directory have the fingerprint of something else that was there.  If the writing
ends well, then the tree is on disk, the summary counts the files that differ from the tree before and
the others, and without the short cut a writing that ends well gives the same.  When nothing refuses a
change, the short cut makes no difference at all. -/
theorem writeTree_exact {s s' : Log} {r : Except DiskError Summary} (st : t.Storable)
    (hx : exec (writeTree t p previous) s = (r, s')) :
    Altered (Written t p) (Opened t p) s.disk s'.disk ∧
    ((∀ u ∈ previous, u.Storable ∧ Holds s.disk p u) →
      tells (fun previous t => previous.fingerprint = t.fingerprint) previous t = true →
      (∀ summary, r = .ok summary →
        Holds s'.disk p t ∧ summary.written = toWrite previous t.files ∧
        summary.written + summary.unchanged = t.fileCount ∧
        ∀ s₀ s₀' summary₀, s₀.disk.top = s.disk.top →
          exec (writeWith (fun _ _ => false) previous t p) s₀ = (.ok summary₀, s₀') →
            summary₀ = summary ∧ ∀ place, s₀'.disk.view place = s'.disk.view place) ∧
      (s.disk.faults = [] →
        (exec (writeWith (fun _ _ => false) previous t p) s).1 = r ∧
          (exec (writeWith (fun _ _ => false) previous t p) s).2.disk = s'.disk)) := by
  have w := Tree.Storable.wellNamed t st
  have a := exec_writeWith_altered _ t st hx
  refine ⟨a, fun k htell => ⟨?_, fun hd => ?_⟩⟩
  · rintro summary rfl
    have h := exec_writeWith_holds _ t st k htell hx
    obtain ⟨hwritten, hcount⟩ := exec_writeWith_counts _ t w htell hx
    refine ⟨h, hwritten, hcount, fun s₀ s₀' summary₀ htop hx₀ => ?_⟩
    have htell₀ := tells_never t previous
    have k₀ : Kept s₀.disk p previous := Kept.later k (.of_top htop)
    have a₀ := exec_writeWith_altered _ t st hx₀
    have h₀ := exec_writeWith_holds _ t st k₀ htell₀ hx₀
    obtain ⟨hwritten₀, hcount₀⟩ := exec_writeWith_counts _ t w htell₀ hx₀
    have hview : ∀ place, s₀.disk.view place = s.disk.view place := by
      intro place
      rw [view, view, htop]
    refine ⟨?_, view_eq_of_holds hview a₀ a h₀ h⟩
    obtain ⟨written, unchanged⟩ := summary
    obtain ⟨written₀, unchanged₀⟩ := summary₀
    simp only [Summary.mk.injEq] at *
    omega
  · have hsame := exec_writeWith_never _ t st k htell hd (Eq.refl s.disk)
    rw [show exec (writeWith _ previous t p) s = (r, s') from hx] at hsame
    exact ⟨hsame.1.symm, hsame.2.symm⟩

/-- A directory of which one file differs and another does not: one file is written, a directory is
made. -/
theorem writeTree_exact_of_update :
    let previous : FileTree := .dir () [("a", .file () [1]), ("b", .dir () [("c", .file () [2])])]
    let t : FileTree := .dir () [("b", .dir () [("c", .file () [2])]), ("a", .file () [3]),
      ("e", .dir () [])]
    let p : Path := .ofString "p"
    let d : Disk := { top := .dir [([112], .dir [([97], .file [1]), ([98], .dir [([99], .file [2])])])] }
    ∃ s', t.Storable ∧ exec (writeTree t p (some previous)) { disk := d } =
        (.ok { written := 1, unchanged := 1 }, s') ∧
      (previous.Storable ∧ Holds d p previous) ∧
      tells (fun previous t => previous.fingerprint = t.fingerprint) (some previous) t = true ∧
      Altered (Written t p) (Opened t p) d s'.disk ∧ Holds s'.disk p t ∧
      (exec (writeWith (fun _ _ => false) (some previous) t p) { disk := d }).2.disk = s'.disk := by
  intro previous t p d
  have st : t.Storable := by
    simp only [t, Tree.Storable, Tree.StorableAll]
    decide
  have sp : previous.Storable := by
    simp only [previous, Tree.Storable, Tree.StorableAll]
    decide
  have file : ∀ {p c}, (d.contentsAt p).toOption = some c → Holds d p (Tree.file () c) :=
    fun h => holds_file_iff.mpr (toOption_eq_some.mp h)
  have holds : Holds d p previous := by
    refine holds_dir_of_mem (.inr (by decide +kernel)) ?_
    rw [List.forall_mem_cons, List.forall_mem_singleton]
    refine ⟨file (by decide +kernel), holds_dir_of_mem (.inr (by decide +kernel)) ?_⟩
    rw [List.forall_mem_singleton]
    exact file (by decide +kernel)
  have htell : tells (fun previous t => previous.fingerprint = t.fingerprint) (some previous) t =
      true := by decide +kernel
  have hresult : (exec (writeTree t p (some previous)) { disk := d }).1 =
      .ok { written := 1, unchanged := 1 } := toOption_eq_some.mp (by decide +kernel)
  have hx : exec (writeTree t p (some previous)) { disk := d } =
      (.ok { written := 1, unchanged := 1 }, (exec (writeTree t p (some previous)) { disk := d }).2) :=
    Prod.ext hresult rfl
  obtain ⟨a, hrest⟩ := writeTree_exact st hx
  have kept : ∀ u ∈ some previous, u.Storable ∧ Holds d p u := by
    rintro u hu
    obtain rfl := Option.some.inj hu
    exact ⟨sp, holds⟩
  obtain ⟨hok, hcalm⟩ := hrest kept htell
  exact ⟨_, st, hx, ⟨sp, holds⟩, htell, a, (hok _ rfl).1, (hcalm rfl).2⟩

/-- Contents of 69 bytes. -/
def zeros : Bytes := List.replicate 69 0

/-- Other contents, with which a directory of one file has the fingerprint that it has with
`zeros`. -/
def twinOfZeros : Bytes :=
  [0, 0, 0, 0, 0, 1, 0, 0, 0, 0, 0, 0, 0, 0, 0, 0, 0, 0, 0, 0, 0, 0, 0, 0, 0, 0, 0, 0, 0, 0, 0, 0, 0, 0,
    0, 0, 0, 116, 56, 83, 158, 21, 72, 150, 163, 0, 0, 0, 0, 0, 0, 0, 0, 57, 222, 59, 243, 223, 40,
    106, 19, 0, 0, 0, 0, 0, 0, 0, 0]

/-- A directory that has the fingerprint of what was there is passed over, although its file differs:
the file is not written, and counted as unchanged. -/
theorem writeTree_of_twin :
    let previous : FileTree := .dir () [("a", .file () zeros)]
    let t : FileTree := .dir () [("a", .file () twinOfZeros)]
    let p : Path := .ofString "p"
    let d : Disk := { top := .dir [([112], .dir [([97], .file zeros)])] }
    ∃ s', t.Storable ∧ previous.Storable ∧ Holds d p previous ∧
      exec (writeTree t p (some previous)) { disk := d } =
        (.ok { written := 0, unchanged := 1 }, s') ∧
      toWrite (some previous) t.files = 1 ∧ ¬ Holds s'.disk p t ∧
      s'.disk.contentsAt (p.below ["a"]) = .ok zeros ∧
      (exec (writeWith (fun _ _ => false) (some previous) t p) { disk := d }).1 =
        .ok { written := 1, unchanged := 0 } := by
  intro previous t p d
  have storable : ∀ c, (Tree.dir () [("a", Tree.file () c)]).Storable := by
    intro c
    simp only [Tree.Storable, Tree.StorableAll]
    decide
  have hfile : d.contentsAt (p.below ["a"]) = .ok zeros := toOption_eq_some.mp (by decide +kernel)
  have holds : Holds d p previous := by
    refine holds_dir_of_mem (.inr (by decide +kernel)) ?_
    rw [List.forall_mem_singleton]
    exact holds_file_iff.mpr hfile
  have hsame : previous.fingerprint = t.fingerprint := by decide +kernel
  refine ⟨{ disk := d, notices := [⟨.debug, .disk, s!"Directory {p.display} is unchanged"⟩] },
    storable _, storable _, holds, ?_, by decide +kernel, fun h => ?_, hfile,
    toOption_eq_some.mp (by decide +kernel)⟩
  · have hskip : (some previous).any (fun u => decide (u.fingerprint = t.fingerprint)) = true :=
      decide_eq_true hsame
    rw [writeTree, writeWith, exec_ite, if_pos hskip]
    rfl
  · have hother := h ["a"] _ rfl
    rw [stands, hfile] at hother
    exact absurd (Except.ok.inj hother) (by decide)

end Disk

end PackageOutline
