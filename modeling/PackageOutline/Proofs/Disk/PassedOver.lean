import PackageOutline.Proofs.Disk.ShortCut
import PackageOutline.Proofs.Tree.Stream

/-! # Directories that are passed over

Writing a tree compares every directory that it comes to with what was there.  If that counts as the
same, the directory is passed over (`Disk.PassesOver`), which the run reports, and nothing below it is
looked at.  A run reports these directories only, and all of them when it ends well
(`exec_writeWith_reports`).

What counts as the same has the same fingerprint.  As the hashed bytes determine the tree, a directory
that is passed over equals what was there, unless the hash itself takes two streams for one
(`streams_tell_apart`). -/

namespace PackageOutline

/-- Two streams of bytes that the hash takes for one. -/
def Fingerprint.Collide (bs cs : Bytes) : Prop :=
  bs ≠ cs ∧ Fingerprint.hash bs = Fingerprint.hash cs

/-- Trees with one fingerprint are equal, unless their streams collide. -/
theorem Tree.plain_eq_or_collide {α β : Type} {t : Tree α} {u : Tree β} (st : t.Sized)
    (su : u.Sized) (h : t.fingerprint = u.fingerprint) :
    t.plain = u.plain ∨ Fingerprint.Collide t.stream u.stream := by
  by_cases hstream : t.stream = u.stream
  · exact .inl ((stream_eq_iff st su).mp hstream)
  · exact .inr ⟨hstream, h⟩

namespace Disk

variable {α β : Type} {isSame : Tree β → Tree α → Bool} {previous : Option (Tree β)} {t v : Tree α}
  {a : Tree β} {es : List (String × Tree α)} {l : α} {c : Bytes} {n : String} {ns : List String}
  {p : Path} {s s₁ s' : Log} {ended : Bool} {P Q : List String → Prop}

/-- Writing a tree where `previous` was comes, by some names, to the directory `v` where `a` was, and
passes over it because it counts as the same.  It comes to no entry of such a directory. -/
inductive PassesOver (isSame : Tree β → Tree α → Bool) :
    Option (Tree β) → Tree α → List String → Tree β → Tree α → Prop
  | here {a : Tree β} {l : α} {es : List (String × Tree α)} (same : isSame a (.dir l es) = true) :
      PassesOver isSame (some a) (.dir l es) [] a (.dir l es)
  | inside {previous : Option (Tree β)} {l : α} {es : List (String × Tree α)} {n : String}
      {t : Tree α} {ns : List String} {a : Tree β} {v : Tree α}
      (other : ¬ previous.any (isSame · (.dir l es)) = true) (entry : Entries.get? n es = some t)
      (passes : PassesOver isSame (previous.bind fun b => b.entry? n) t ns a v) :
      PassesOver isSame previous (.dir l es) (n :: ns) a v

/-- Some directory is passed over by some names. -/
def Passes (isSame : Tree β → Tree α → Bool) (previous : Option (Tree β)) (t : Tree α)
    (ns : List String) : Prop :=
  ∃ a v, PassesOver isSame previous t ns a v

/-- Some directory among some entries or below is passed over by some names. -/
def PassesAmong (isSame : Tree β → Tree α → Bool) (previous : Option (Tree β))
    (es : List (String × Tree α)) (ns : List String) : Prop :=
  ∃ n t ms, ns = n :: ms ∧ Entries.get? n es = some t ∧
    Passes isSame (previous.bind fun b => b.entry? n) t ms

theorem PassesOver.found (h : PassesOver isSame previous t ns a v) :
    previous.bind (Tree.at? ns) = some a ∧ t.at? ns = some v ∧ v.isDir = true ∧
      isSame a v = true := by
  induction h with
  | here same => exact ⟨rfl, rfl, rfl, same⟩
  | @inside previous l es n t ns a v _ entry _ ih =>
      obtain ⟨hbefore, hnow, hrest⟩ := ih
      refine ⟨?_, Option.bind_eq_some_iff.mpr ⟨t, entry, hnow⟩, hrest⟩
      rw [Option.bind_assoc] at hbefore
      exact hbefore

theorem not_passes_file : ¬ Passes isSame previous (.file l c) ns := by
  rintro ⟨a, v, h⟩
  cases h

theorem passes_dir_iff (other : ¬ previous.any (isSame · (.dir l es)) = true) :
    Passes isSame previous (.dir l es) ns ↔ PassesAmong isSame previous es ns := by
  constructor
  · rintro ⟨a, v, h⟩
    cases h with
    | here same => exact absurd same other
    | inside _ entry passes => exact ⟨_, _, _, rfl, entry, a, v, passes⟩
  · rintro ⟨n, t, ms, rfl, entry, a, v, passes⟩
    exact ⟨a, v, .inside other entry passes⟩

theorem passesAmong_cons_iff (hfresh : n ∉ Entries.keys es) :
    PassesAmong isSame previous ((n, t) :: es) ns ↔
      (∃ ms, ns = n :: ms ∧ Passes isSame (previous.bind fun b => b.entry? n) t ms) ∨
        PassesAmong isSame previous es ns := by
  constructor
  · rintro ⟨m, u, ms, rfl, entry, passes⟩
    rw [Entries.get?] at entry
    split at entry
    · rename_i hm
      obtain rfl := hm
      obtain rfl := Option.some.inj entry
      exact .inl ⟨ms, rfl, passes⟩
    · exact .inr ⟨m, u, ms, rfl, entry, passes⟩
  · rintro (⟨ms, rfl, passes⟩ | ⟨m, u, ms, rfl, entry, passes⟩)
    · exact ⟨n, t, ms, rfl, by rw [Entries.get?, if_pos rfl], passes⟩
    · exact ⟨m, u, ms, rfl, get?_tail hfresh entry, passes⟩

/-! ### What a run reports -/

/-- The notice that the directory at a path is passed over. -/
def unchangedNotice (p : Path) : Notice :=
  ⟨.debug, .disk, s!"Directory {p.display} is unchanged"⟩

/-- What a run adds to the log: the directories that it reports as unchanged stand below a path by
names of one kind, and if it ended well, then it reports them for all names of this kind. -/
def Reports (p : Path) (P : List String → Prop) (ended : Bool) (s s' : Log) : Prop :=
  ∃ added, s'.notices = s.notices ++ added ∧
    (∀ notice ∈ added, notice.level = .debug → ∃ ns, P ns ∧ notice = unchangedNotice (p.below ns)) ∧
    (ended = true → ∀ ns, P ns → unchangedNotice (p.below ns) ∈ added)

namespace Reports

theorem quiet {added : List Notice} (hs : s'.notices = s.notices ++ added)
    (hquiet : ∀ notice ∈ added, notice.level ≠ .debug) (hP : ∀ ns, ¬ P ns) :
    Reports p P ended s s' :=
  ⟨added, hs, fun notice hmem hlevel => absurd hlevel (hquiet notice hmem),
    fun _ ns h => absurd h (hP ns)⟩

theorem stop (h : Reports p P ended s s') (hPQ : ∀ ns, P ns → Q ns) : Reports p Q false s s' := by
  obtain ⟨added, hs, honly, -⟩ := h
  refine ⟨added, hs, fun notice hmem hlevel => ?_, fun hended => by cases hended⟩
  obtain ⟨ns, hP, hnotice⟩ := honly notice hmem hlevel
  exact ⟨ns, hPQ ns hP, hnotice⟩

theorem congr (h : Reports p P ended s s') (hPQ : ∀ ns, P ns ↔ Q ns) : Reports p Q ended s s' := by
  obtain rfl : P = Q := funext fun ns => propext (hPQ ns)
  exact h

theorem trans (h : Reports p P true s s₁) (h' : Reports p Q ended s₁ s') :
    Reports p (fun ns => P ns ∨ Q ns) ended s s' := by
  obtain ⟨added, hs, honly, hall⟩ := h
  obtain ⟨added', hs', honly', hall'⟩ := h'
  refine ⟨added ++ added', by rw [hs', hs, List.append_assoc], fun notice hmem hlevel => ?_,
    fun hended ns hns => List.mem_append.mpr ?_⟩
  · rcases List.mem_append.mp hmem with hmem | hmem
    · obtain ⟨ns, hP, hnotice⟩ := honly notice hmem hlevel
      exact ⟨ns, .inl hP, hnotice⟩
    · obtain ⟨ns, hQ, hnotice⟩ := honly' notice hmem hlevel
      exact ⟨ns, .inr hQ, hnotice⟩
  · exact hns.imp (hall rfl ns) (hall' hended ns)

theorem entry (h : Reports (p.join (Utf8.encode n)) P ended s s') :
    Reports p (fun ns => ∃ ms, ns = n :: ms ∧ P ms) ended s s' := by
  obtain ⟨added, hs, honly, hall⟩ := h
  refine ⟨added, hs, fun notice hmem hlevel => ?_, ?_⟩
  · obtain ⟨ms, hP, hnotice⟩ := honly notice hmem hlevel
    exact ⟨n :: ms, ⟨ms, rfl, hP⟩, hnotice⟩
  · rintro hended _ ⟨ms, rfl, hP⟩
    exact hall hended ms hP

end Reports

theorem notices_of_apply {action : DiskAction} {f : Path → Change Unit} {r : Except DiskError Unit}
    (hx : exec (apply action p f) s = (r, s')) : s'.notices = s.notices := by
  rw [exec_apply] at hx
  obtain ⟨-, rfl⟩ := Prod.mk.inj hx
  rfl

theorem exec_writeWith_file_notices {r : Except DiskError Summary}
    (hx : exec (writeWith isSame previous (.file l c) p) s = (r, s')) :
    ∃ added, s'.notices = s.notices ++ added ∧ ∀ notice ∈ added, notice.level ≠ .debug := by
  have none : s'.notices = s.notices → ∃ added, s'.notices = s.notices ++ added ∧
      ∀ notice ∈ added, notice.level ≠ .debug :=
    fun h => ⟨[], by rw [h, List.append_nil], fun _ hmem => by cases hmem⟩
  rw [writeWith, exec_ite] at hx
  split at hx
  · obtain ⟨-, rfl⟩ := Prod.mk.inj hx
    exact none rfl
  · rcases exec_bind_cases hx with ⟨e, hset, -⟩ | ⟨_, s₁, hset, hx⟩
    · exact none (notices_of_apply hset)
    · rw [exec_bind_of_ok (exec_note ..)] at hx
      obtain ⟨-, rfl⟩ := Prod.mk.inj hx
      refine ⟨_, by rw [notices_of_apply hset], fun notice hmem => ?_⟩
      rw [List.mem_singleton.mp hmem]
      show Level.info ≠ Level.debug
      decide

/-- A directory that counts as the same is reported as unchanged.  Any other one reports nothing itself:
making it fails, or its entries are written. -/
theorem exec_writeWith_dir_notices {r : Except DiskError Summary}
    (hx : exec (writeWith isSame previous (.dir l es) p) s = (r, s')) :
    (∃ a, previous = some a ∧ isSame a (.dir l es) = true ∧
        s'.notices = s.notices ++ [unchangedNotice p]) ∨
      ¬ previous.any (isSame · (.dir l es)) = true ∧
        ((∃ e, r = .error e ∧ s'.notices = s.notices) ∨
          ∃ s₁, s₁.notices = s.notices ∧ exec (writeEntries isSame previous es p) s₁ = (r, s')) := by
  rw [writeWith, exec_ite] at hx
  by_cases hsame : previous.any (isSame · (.dir l es)) = true
  · rw [if_pos hsame, exec_bind_of_ok (exec_note ..)] at hx
    obtain ⟨-, rfl⟩ := Prod.mk.inj hx
    obtain ⟨a, rfl, ha⟩ := (Option.any_eq_true ..).mp hsame
    exact .inl ⟨a, rfl, ha, rfl⟩
  · rw [if_neg hsame] at hx
    rcases exec_bind_cases hx with ⟨e, hmake, hr⟩ | ⟨_, s₁, hmake, hall⟩
    · exact .inr ⟨hsame, .inl ⟨e, hr, notices_of_apply hmake⟩⟩
    · exact .inr ⟨hsame, .inr ⟨s₁, notices_of_apply hmake, hall⟩⟩

mutual

/-- Writing a tree reports the directories that are passed over. -/
theorem exec_writeWith_reports (isSame : Tree β → Tree α → Bool) : ∀ (t : Tree α)
    {previous : Option (Tree β)} {p : Path} {s s' : Log} {r : Except DiskError Summary},
    t.WellNamed → exec (writeWith isSame previous t p) s = (r, s') →
      Reports p (Passes isSame previous t) r.isOk s s'
  | .file l c, previous, p, s, s', r, _, hx => by
    obtain ⟨added, hs, hquiet⟩ := exec_writeWith_file_notices hx
    exact .quiet hs hquiet fun _ => not_passes_file
  | .dir l es, previous, p, s, s', r, w, hx => by
    rw [Tree.WellNamed] at w
    rcases exec_writeWith_dir_notices hx with ⟨a, rfl, ha, hs⟩ |
      ⟨hother, ⟨e, rfl, hs⟩ | ⟨s₁, hs, hall⟩⟩
    · refine ⟨_, hs, fun notice hmem _ => ?_, ?_⟩
      · exact ⟨[], ⟨a, _, .here ha⟩, List.mem_singleton.mp hmem⟩
      · -- nothing below a directory that is passed over is passed over
        rintro - _ ⟨_, _, h⟩
        cases h with
        | here => exact List.mem_cons_self
        | inside other => exact absurd ha other
    · refine ⟨[], by rw [hs, List.append_nil], fun _ hmem => ?_, fun hended => ?_⟩
      · cases hmem
      · cases hended
    · have hentries := exec_writeEntries_reports isSame es w.1 w.2 hall
      obtain ⟨added, hs', hrest⟩ := hentries.congr fun ns => (passes_dir_iff hother).symm
      exact ⟨added, by rw [hs', hs], hrest⟩

theorem exec_writeEntries_reports (isSame : Tree β → Tree α → Bool) :
    ∀ (es : List (String × Tree α)) {previous : Option (Tree β)} {p : Path} {s s' : Log}
    {r : Except DiskError Summary}, (Entries.keys es).Nodup → Tree.WellNamedAll es →
    exec (writeEntries isSame previous es p) s = (r, s') →
      Reports p (PassesAmong isSame previous es) r.isOk s s'
  | [], previous, p, s, s', r, _, _, hx => by
    rw [writeEntries] at hx
    obtain ⟨-, rfl⟩ := Prod.mk.inj hx
    refine .quiet (List.append_nil _).symm (fun _ hmem => by cases hmem) ?_
    rintro _ ⟨_, _, _, -, entry, -⟩
    cases entry
  | (n, t) :: es, previous, p, s, s', r, hk, w, hx => by
    rw [Entries.keys_cons, List.nodup_cons] at hk
    rw [Tree.WellNamedAll] at w
    have hiff : ∀ ns, PassesAmong isSame previous ((n, t) :: es) ns ↔ _ :=
      fun ns => passesAmong_cons_iff hk.1
    rcases exec_writeEntries_cons hx with ⟨e, hfirst, rfl⟩ | ⟨first, s₁, rest, hfirst, hall, rfl⟩
    · have h := (exec_writeWith_reports isSame t w.1 hfirst).entry
      exact h.stop fun ns hns => (hiff ns).mpr (.inl hns)
    · have h := (exec_writeWith_reports isSame t w.1 hfirst).entry
      have h' := exec_writeEntries_reports isSame es hk.2 w.2 hall
      have hended : (rest.map first.add).isOk = rest.isOk := by cases rest <;> rfl
      rw [hended]
      exact (h.trans h').congr fun ns => (hiff ns).symm

end

/-! ### What is passed over -/

/-- A directory that is passed over for its fingerprint equals what was there, unless their streams
collide. -/
theorem PassesOver.plain_eq_or_collide (st : t.Sized) (sp : ∀ b ∈ previous, b.Sized)
    (h : PassesOver (fun a v => a.fingerprint = v.fingerprint) previous t ns a v) :
    a.plain = v.plain ∨ Fingerprint.Collide a.stream v.stream := by
  obtain ⟨hbefore, hnow, -, hsame⟩ := h.found
  obtain ⟨b, hb, ha⟩ := Option.bind_eq_some_iff.mp hbefore
  exact Tree.plain_eq_or_collide ((sp b hb).at? ha) (st.at? hnow) (of_decide_eq_true hsame)

/-- What is hashed determines the tree: two trees have the same stream if and only if they are equal,
and of two different trees none has a stream that begins that of the other.  So the directories that a
run of writing reports as unchanged are equal to what stood there before, unless the hash takes two
different streams for one. -/
theorem streams_tell_apart :
    (∀ {α β : Type} (t : Tree α) (u : Tree β), t.Sized → u.Sized →
      (t.stream = u.stream ↔ t.plain = u.plain) ∧
        (t.plain ≠ u.plain → ¬ t.stream <+: u.stream ∧ ¬ u.stream <+: t.stream)) ∧
    ∀ {α β : Type} (t : Tree α) (previous : Option (Tree β)) (p : Path) (s s' : Log)
      (r : Except DiskError Summary), t.WellNamed → t.Sized → (∀ a ∈ previous, a.Sized) →
      exec (writeTree t p previous) s = (r, s') →
        Reports p (Passes (fun a v => a.fingerprint = v.fingerprint) previous t) r.isOk s s' ∧
        ∀ ns a v, PassesOver (fun a v => a.fingerprint = v.fingerprint) previous t ns a v →
          previous.bind (Tree.at? ns) = some a ∧ t.at? ns = some v ∧ v.isDir = true ∧
            (a.plain = v.plain ∨ Fingerprint.Collide a.stream v.stream) := by
  refine ⟨fun t u st su => ⟨Tree.stream_eq_iff st su, fun hne => ⟨fun h => hne ?_, fun h => hne ?_⟩⟩,
    fun t previous p s s' r w st sp hx => ⟨?_, fun ns a v h => ?_⟩⟩
  · exact Tree.plain_eq_of_stream_begins st su h
  · exact (Tree.plain_eq_of_stream_begins su st h).symm
  · exact exec_writeWith_reports _ t w hx
  · obtain ⟨hbefore, hnow, hdir, -⟩ := h.found
    exact ⟨hbefore, hnow, hdir, h.plain_eq_or_collide st sp⟩

/-- Of three entries one directory is the same as before, one has only the fingerprint of what was
there, and a file differs: both directories are reported as unchanged, and the streams of the second
one collide. -/
theorem streams_tell_apart_of_twin :
    let a : FileTree := .dir () [("a", .file () zeros)]
    let v : FileTree := .dir () [("a", .file () twinOfZeros)]
    let kept : FileTree := .dir () [("b", .file () [1])]
    let previous : FileTree := .dir () [("d", a), ("e", kept), ("f", .file () [2])]
    let t : FileTree := .dir () [("d", v), ("e", kept), ("f", .file () [])]
    let p : Path := .ofString "p"
    let d : Disk := { top := .dir [([112], .dir [])] }
    ∃ summary s', t.WellNamed ∧ t.Sized ∧ previous.Sized ∧
      exec (writeTree t p (some previous)) { disk := d } = (.ok summary, s') ∧
      unchangedNotice (p.below ["d"]) ∈ s'.notices ∧ unchangedNotice (p.below ["e"]) ∈ s'.notices ∧
      Fingerprint.Collide a.stream v.stream ∧ ¬ a.stream <+: v.stream := by
  intro a v kept previous t p d
  obtain ⟨hstreams, hruns⟩ := streams_tell_apart
  have w : t.WellNamed := by
    simp only [t, v, kept, Tree.WellNamed, Tree.WellNamedAll, Entries.keys]
    decide
  have st : t.Sized := by
    simp only [t, v, kept, Tree.Sized, Tree.SizedAll]
    decide +kernel
  have sp : previous.Sized := by
    simp only [previous, a, kept, Tree.Sized, Tree.SizedAll]
    decide +kernel
  have hresult : (exec (writeTree t p (some previous)) { disk := d }).1 =
      .ok { written := 1, unchanged := 2 } := toOption_eq_some.mp (by decide +kernel)
  have hx : exec (writeTree t p (some previous)) { disk := d } =
      (.ok { written := 1, unchanged := 2 },
        (exec (writeTree t p (some previous)) { disk := d }).2) := Prod.ext hresult rfl
  have hprevious : ∀ b ∈ some previous, b.Sized := by
    rintro b hb
    exact Option.some.inj hb ▸ sp
  obtain ⟨⟨added, hs, -, hall⟩, hpassed⟩ := hruns t (some previous) p _ _ _ w st hprevious hx
  have hother : ¬ (some previous).any (fun b => decide (b.fingerprint = t.fingerprint)) = true := by
    decide +kernel
  have htwin : PassesOver (fun a v => a.fingerprint = v.fingerprint) (some previous) t ["d"] a v :=
    .inside hother rfl (.here (by decide +kernel))
  have hkept : PassesOver (fun a v => a.fingerprint = v.fingerprint) (some previous) t ["e"] kept
      kept :=
    .inside hother rfl (.here (decide_eq_true rfl))
  have hne : a.plain ≠ v.plain := fun h =>
    absurd (Tree.contents_at?_of_plain h ["a"]) (by decide +kernel)
  have hcollide := (hpassed ["d"] a v htwin).2.2.2.resolve_left hne
  have sa : a.Sized := sp.at? (show previous.at? ["d"] = some a from rfl)
  have sv : v.Sized := st.at? (show t.at? ["d"] = some v from rfl)
  have reported : ∀ ns, Passes (fun a v => a.fingerprint = v.fingerprint) (some previous) t ns →
      unchangedNotice (p.below ns) ∈
        (exec (writeTree t p (some previous)) { disk := d }).2.notices := by
    intro ns hns
    rw [hs]
    exact List.mem_append_right _ (hall rfl ns hns)
  exact ⟨_, _, w, st, sp, hx, reported ["d"] ⟨a, v, htwin⟩, reported ["e"] ⟨kept, kept, hkept⟩,
    hcollide, ((hstreams a v sa sv).2 hne).1⟩

end Disk

end PackageOutline
