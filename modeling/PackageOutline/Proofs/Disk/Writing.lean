import PackageOutline.Disk.Write
import PackageOutline.Proofs.Disk.Changes
import PackageOutline.Proofs.Tree.Listing

/-! # Writing trees

What writing does with one file, one directory and one entry is said once (`exec_writeWith_file`,
`exec_writeWith_dir`, `exec_writeEntries_cons`).

Writing a tree below a path changes nothing that does not lie there (`exec_writeWith_extends`).  When
it ends well, each file of the tree is on disk, except that a file that the tree before has with the
same contents is left as it is on disk, whatever that is (`exec_writeWith_ok`).

Directories that count as the same are passed over, so the second statement needs that those met on
the way are the same (`Disk.tells`). -/

namespace PackageOutline

namespace Tree

variable {α β : Type} {t u : Tree α} {es : List (String × Tree α)} {n : String} {ns : List String}

mutual

/-- Whether a tree fits on a disk: the names in a directory are distinct and valid. -/
def Storable : Tree α → Prop
  | .file .. => True
  | .dir _ es => StorableAll es

/-- Whether the names of some entries are distinct and valid, and so on below. -/
def StorableAll : List (String × Tree α) → Prop
  | [] => True
  | (n, t) :: es => Identifier.isValid n = true ∧ n ∉ Entries.keys es ∧ t.Storable ∧ StorableAll es

end

theorem storableAll_iff : StorableAll es ↔ (Entries.keys es).Nodup ∧
    ∀ e ∈ es, Identifier.isValid e.1 = true ∧ e.2.Storable := by
  induction es with
  | nil => simp [StorableAll]
  | cons e es ih =>
      obtain ⟨n, t⟩ := e
      rw [StorableAll, ih, Entries.keys_cons, List.nodup_cons, List.forall_mem_cons]
      constructor
      · rintro ⟨hvalid, hfresh, ht, hnodup, hes⟩
        exact ⟨⟨hfresh, hnodup⟩, ⟨hvalid, ht⟩, hes⟩
      · rintro ⟨⟨hfresh, hnodup⟩, ⟨hvalid, ht⟩, hes⟩
        exact ⟨hvalid, hfresh, ht, hnodup, hes⟩

theorem StorableAll.get? (s : StorableAll es) (hn : Entries.get? n es = some t) :
    Identifier.isValid n = true ∧ t.Storable := by
  induction es with
  | nil => cases hn
  | cons e es ih =>
      obtain ⟨m, u⟩ := e
      rw [StorableAll] at s
      obtain ⟨hvalid, -, hu, hes⟩ := s
      rw [Entries.get?] at hn
      split at hn
      · rename_i hm
        rw [← hm, ← Option.some.inj hn]
        exact ⟨hvalid, hu⟩
      · exact ih hes hn

theorem Storable.entry? (s : t.Storable) (hn : t.entry? n = some u) :
    Identifier.isValid n = true ∧ u.Storable := by
  cases t with
  | file l c => cases hn
  | dir l es =>
      rw [Storable] at s
      exact s.get? hn

/-- All paths in the tree are made of valid names. -/
theorem Storable.names (s : t.Storable) (hu : t.at? ns = some u) : Path.Names ns := by
  induction ns generalizing t with
  | nil =>
      intro n hn
      cases hn
  | cons n ns ih =>
      rw [Tree.at?] at hu
      obtain ⟨v, hv, hu⟩ := Option.bind_eq_some_iff.mp hu
      obtain ⟨hvalid, sv⟩ := s.entry? hv
      intro m hm
      rcases List.mem_cons.mp hm with rfl | hm
      · exact hvalid
      · exact ih sv hu m hm

mutual

/-- A well-named tree fits on a disk when its listing has valid names only. -/
theorem storable_of_listing (path : List String) : ∀ t : Tree α, t.WellNamed →
    (∀ e ∈ t.listing path, Path.Names e.1) → t.Storable
  | .file _ _, _, _ => by simp [Storable]
  | .dir _ es, w, hl => by
    rw [WellNamed] at w
    rw [listing] at hl
    rw [Storable]
    exact storableAll_of_listingAll path es w.1 w.2 hl

theorem storableAll_of_listingAll (path : List String) : ∀ es : List (String × Tree α),
    (Entries.keys es).Nodup → WellNamedAll es → (∀ e ∈ listingAll path es, Path.Names e.1) →
      StorableAll es
  | [], _, _, _ => by simp [StorableAll]
  | (n, t) :: es, hk, w, hl => by
    rw [Entries.keys_cons, List.nodup_cons] at hk
    rw [WellNamedAll] at w
    simp only [listingAll, List.mem_cons, List.mem_append] at hl
    rw [StorableAll]
    refine ⟨?_, hk.1, ?_, ?_⟩
    · exact hl _ (Or.inl rfl) n (by simp)
    · exact storable_of_listing (path ++ [n]) t w.1 fun e he => hl e (Or.inr (Or.inl he))
    · exact storableAll_of_listingAll path es hk.2 w.2 fun e he => hl e (Or.inr (Or.inr he))

end

end Tree

namespace Disk

variable {α β : Type} {isSame : Tree β → Tree α → Bool} {previous : Option (Tree β)} {t : Tree α}
  {es : List (String × Tree α)} {d d' d'' : Disk} {root : Path} {pre names : List String}
  {P : List Bytes → Prop} {p : Path} {n : String} {l : α} {c : Bytes} {s s' : Log}
  {r : Except DiskError Summary} {summary : Summary}

/-! ### Places below a path -/

/-- The places of what lies at or below some names, which lie below a path. -/
def Below (root : Path) (pre : List String) (d : Disk) (place : List Bytes) : Prop :=
  ∃ names, Path.Names names ∧ names ≠ [] ∧ pre <+: names ∧ d.resolve (root.below names) = .ok place

theorem Below.extends {place : List Bytes} (b : Below root pre d place) (e : Extends P d d') :
    Below root pre d' place := by
  obtain ⟨names, hnames, hne, hpre, hr⟩ := b
  exact ⟨names, hnames, hne, hpre, e.resolve hr⟩

theorem Below.of_prefix {pre' : List String} {place : List Bytes} (b : Below root pre' d place)
    (hp : pre <+: pre') : Below root pre d place := by
  obtain ⟨names, hnames, hne, hpre, hr⟩ := b
  exact ⟨names, hnames, hne, hp.trans hpre, hr⟩

theorem names_of_resolve {ns ms : List String} {place : List Bytes} (hns : Path.Names ns)
    (hms : Path.Names ms) (hn : ns ≠ []) (hm : ms ≠ []) (hr : d.resolve (root.below ns) = .ok place)
    (hr' : d.resolve (root.below ms) = .ok place) : ns = ms := by
  obtain ⟨top, htop, rfl⟩ := resolve_below hns hn hr
  obtain ⟨top', htop', heq⟩ := resolve_below hms hm hr'
  rw [htop] at htop'
  obtain rfl := Except.ok.inj htop'
  exact Utf8.map_encode_injective (List.append_cancel_left heq)

theorem Extends.outside (e : Extends P d d') (hP : ∀ {place}, P place →
    ∃ pre, ¬ pre <+: names ∧ Below root pre d' place) (hnames : Path.Names names)
    (hne : names ≠ []) (hc : d.contentsAt (root.below names) = .ok c) :
    d'.contentsAt (root.below names) = .ok c := by
  obtain ⟨place, hr, -⟩ := contentsAt_eq_ok.mp hc
  refine e.contentsAt hr (fun hp => ?_) hc
  obtain ⟨pre, hout, ms, hms, hm, hpre, hr'⟩ := hP hp
  obtain rfl := names_of_resolve hnames hms hne hm (e.resolve hr) hr'
  exact hout hpre

/-! ### One step of writing -/

theorem exec_apply (action : DiskAction) (p : Path) (f : Path → Change Unit) (s : Log) :
    exec (apply action p f) s = ((exec (f p) s.disk).1.mapError (⟨action, p, ·⟩),
      { s with disk := (exec (f p) s.disk).2 }) := rfl

theorem exec_note (level : Level) (text : String) (s : Log) : exec (note level text) s =
    (.ok (), { s with notices := s.notices ++ [⟨level, .disk, text⟩] }) := rfl

theorem exec_apply_eq_ok {action : DiskAction} {f : Path → Change Unit}
    (hx : exec (apply action p f) s = (.ok (), s')) : exec (f p) s.disk = (.ok (), s'.disk) := by
  rw [exec_apply] at hx
  obtain ⟨hr, rfl⟩ := Prod.mk.inj hx
  exact Prod.ext (mapError_eq_ok.mp hr) rfl

/-- A file is left alone if the tree before has its contents, and written otherwise; that fails as the
change of the disk does. -/
theorem exec_writeWith_file_cases
    (hx : exec (writeWith isSame previous (.file l c) p) s = (r, s')) :
    (previous.bind Tree.contents? = some c ∧ r = .ok { unchanged := 1 } ∧ s' = s) ∨
      (previous.bind Tree.contents? ≠ some c ∧ ∃ r', exec (setFile p c) s.disk = (r', s'.disk) ∧
        r = (r'.mapError (⟨.write, p, ·⟩)).map fun _ => { written := 1 }) := by
  rw [writeWith, exec_ite] at hx
  by_cases hsame : previous.bind Tree.contents? = some c
  · rw [if_pos hsame] at hx
    obtain ⟨rfl, rfl⟩ := Prod.mk.inj hx
    exact .inl ⟨hsame, rfl, rfl⟩
  · rw [if_neg hsame] at hx
    refine .inr ⟨hsame, ?_⟩
    rcases hset : exec (setFile p c) s.disk with ⟨r', d'⟩
    have happly := exec_apply .write p (setFile · c) s
    rw [hset] at happly
    cases r' with
    | error e =>
        rw [exec_bind_of_error happly] at hx
        obtain ⟨rfl, rfl⟩ := Prod.mk.inj hx
        exact ⟨_, rfl, rfl⟩
    | ok u =>
        rw [exec_bind_of_ok happly, exec_bind_of_ok (exec_note ..)] at hx
        obtain ⟨rfl, rfl⟩ := Prod.mk.inj hx
        exact ⟨_, rfl, rfl⟩

/-- A file that was written has its contents. -/
theorem exec_writeWith_file
    (hx : exec (writeWith isSame previous (.file l c) p) s = (r, s')) :
    (previous.bind Tree.contents? = some c ∧ r = .ok { unchanged := 1 } ∧ s' = s) ∨
      (previous.bind Tree.contents? ≠ some c ∧ (∃ r', exec (setFile p c) s.disk = (r', s'.disk)) ∧
        ∀ summary, r = .ok summary → summary = { written := 1 } ∧ s'.disk.contentsAt p = .ok c) := by
  rcases exec_writeWith_file_cases hx with hsame | ⟨hother, r', hset, rfl⟩
  · exact .inl hsame
  · refine .inr ⟨hother, ⟨r', hset⟩, fun summary h => ?_⟩
    cases r' with
    | error e => cases h
    | ok u =>
        rcases exec_setFile hset with ⟨⟨e, he⟩, -⟩ | ⟨-, hc, -⟩
        · cases he
        · exact ⟨(Except.ok.inj h).symm, hc⟩

/-- A directory is passed over if it counts as the same as what was there.  Otherwise it is made, and
if that ends well its entries are written. -/
theorem exec_writeWith_dir (hx : exec (writeWith isSame previous (.dir l es) p) s = (r, s')) :
    (∃ a, previous = some a ∧ isSame a (.dir l es) = true ∧
        r = .ok { unchanged := (Tree.dir l es).fileCount } ∧ s'.disk = s.disk) ∨
      (∃ e, exec (makeDirs p) s.disk = (.error e, s'.disk) ∧ r = .error ⟨.makeDir, p, e⟩) ∨
        ∃ s₁, exec (makeDirs p) s.disk = (.ok (), s₁.disk) ∧
          exec (writeEntries isSame previous es p) s₁ = (r, s') := by
  rw [writeWith, exec_ite] at hx
  split at hx
  · rename_i hsame
    obtain ⟨a, rfl, ha⟩ := (Option.any_eq_true ..).mp hsame
    rw [exec_bind_of_ok (exec_note ..)] at hx
    obtain ⟨rfl, rfl⟩ := Prod.mk.inj hx
    exact .inl ⟨a, rfl, ha, rfl, rfl⟩
  · rcases exec_bind_cases hx with ⟨e, hmake, rfl⟩ | ⟨_, s₁, hmake, hall⟩
    · have happly := (exec_apply .makeDir p makeDirs s).symm.trans hmake
      rcases hmade : exec (makeDirs p) s.disk with ⟨e' | u, d'⟩
      · rw [hmade] at happly
        obtain ⟨he, rfl⟩ := Prod.mk.inj happly
        exact .inr (.inl ⟨e', rfl, congrArg Except.error (Except.error.inj he).symm⟩)
      · rw [hmade] at happly
        cases (Prod.mk.inj happly).1
    · exact .inr (.inr ⟨s₁, exec_apply_eq_ok hmake, hall⟩)

theorem exec_writeWith_dir_eq_ok
    (hx : exec (writeWith isSame previous (.dir l es) p) s = (.ok summary, s')) :
    (∃ a, previous = some a ∧ isSame a (.dir l es) = true ∧
        summary = { unchanged := (Tree.dir l es).fileCount } ∧ s'.disk = s.disk) ∨
      ∃ s₁, exec (makeDirs p) s.disk = (.ok (), s₁.disk) ∧
        exec (writeEntries isSame previous es p) s₁ = (.ok summary, s') := by
  rcases exec_writeWith_dir hx with ⟨a, ha, hsame, hr, hdisk⟩ | ⟨_, -, hr⟩ | hmade
  · exact .inl ⟨a, ha, hsame, Except.ok.inj hr, hdisk⟩
  · cases hr
  · exact .inr hmade

/-- The first entry is written, and if that ends well the others are. -/
theorem exec_writeEntries_cons
    (hx : exec (writeEntries isSame previous ((n, t) :: es) p) s = (r, s')) :
    (∃ e, exec (writeWith isSame (previous.bind fun a => a.entry? n) t (p.join (Utf8.encode n))) s =
        (.error e, s') ∧ r = .error e) ∨
      ∃ first s₁ rest,
        exec (writeWith isSame (previous.bind fun a => a.entry? n) t (p.join (Utf8.encode n))) s =
          (.ok first, s₁) ∧
        exec (writeEntries isSame previous es p) s₁ = (rest, s') ∧ r = rest.map first.add := by
  rw [writeEntries] at hx
  rcases exec_bind_cases hx with ⟨e, hfirst, hr⟩ | ⟨first, s₁, hfirst, hrest⟩
  · exact .inl ⟨e, hfirst, hr⟩
  · refine .inr ⟨first, s₁, ?_⟩
    rcases exec_bind_cases hrest with ⟨e, hall, rfl⟩ | ⟨rest, s₂, hall, hpure⟩
    · exact ⟨.error e, hfirst, hall, rfl⟩
    · obtain ⟨rfl, rfl⟩ := Prod.mk.inj hpure
      exact ⟨.ok rest, hfirst, hall, rfl⟩

theorem exec_writeEntries_cons_eq_ok
    (hx : exec (writeEntries isSame previous ((n, t) :: es) p) s = (.ok summary, s')) :
    ∃ first s₁ rest,
      exec (writeWith isSame (previous.bind fun a => a.entry? n) t (p.join (Utf8.encode n))) s =
        (.ok first, s₁) ∧
      exec (writeEntries isSame previous es p) s₁ = (.ok rest, s') ∧ summary = first.add rest := by
  rcases exec_writeEntries_cons hx with ⟨_, -, hr⟩ | ⟨first, s₁, rest, hfirst, hall, hr⟩
  · cases hr
  · cases rest with
    | error e => cases hr
    | ok rest => exact ⟨first, s₁, rest, hfirst, hall, Except.ok.inj hr⟩

/-! ### What writing leaves alone -/

mutual

/-- Writing a tree, whether it ends well or not, changes no files but those below its path. -/
theorem exec_writeWith_extends (isSame : Tree β → Tree α → Bool) (root : Path) : ∀ (t : Tree α)
    {previous : Option (Tree β)} {pre : List String} {s s' : Log} {r : Except DiskError Summary},
    t.Storable → Path.Names pre → (pre ≠ [] ∨ t.isDir = true) →
      exec (writeWith isSame previous t (root.below pre)) s = (r, s') →
        Extends (Below root pre s'.disk) s.disk s'.disk
  | .file l c, previous, pre, s, s', r, _, hpre, hne, hx => by
    have hne : pre ≠ [] := by simpa [Tree.isDir] using hne
    rcases exec_writeWith_file hx with ⟨-, -, rfl⟩ | ⟨-, ⟨r', hset⟩, -⟩
    · exact .refl _ _
    · rcases exec_setFile hset with ⟨-, htop⟩ | ⟨-, -, e⟩
      · exact .of_top htop
      · exact e.mono fun hr => ⟨pre, hpre, hne, List.prefix_rfl, hr⟩
  | .dir l es, previous, pre, s, s', r, st, hpre, _, hx => by
    rw [Tree.Storable] at st
    rcases exec_writeWith_dir hx with ⟨_, -, -, -, hdisk⟩ | ⟨_, hmade, -⟩ | ⟨s₁, hmade, hall⟩
    · exact hdisk ▸ .refl _ _
    · exact (adds_makeDirs _ hmade).mono fun h => h.elim
    · refine ((adds_makeDirs _ hmade).mono fun h => h.elim).trans ?_
      refine (exec_writeEntries_extends isSame root es st hpre hall).mono ?_
      rintro place ⟨n, -, b⟩
      exact b.of_prefix (List.prefix_append pre [n])

theorem exec_writeEntries_extends (isSame : Tree β → Tree α → Bool) (root : Path) :
    ∀ (es : List (String × Tree α)) {previous : Option (Tree β)} {pre : List String} {s s' : Log}
    {r : Except DiskError Summary}, Tree.StorableAll es → Path.Names pre →
      exec (writeEntries isSame previous es (root.below pre)) s = (r, s') →
        Extends (fun place => ∃ n ∈ Entries.keys es, Below root (pre ++ [n]) s'.disk place)
          s.disk s'.disk
  | [], previous, pre, s, s', r, _, _, hx => by
    rw [writeEntries] at hx
    obtain ⟨-, rfl⟩ := Prod.mk.inj hx
    exact .refl _ _
  | (n, t) :: es, previous, pre, s, s', r, st, hpre, hx => by
    rw [Tree.StorableAll] at st
    obtain ⟨hvalid, -, ht, hes⟩ := st
    have hnames := hpre.append (Path.names_singleton hvalid)
    have hne : pre ++ [n] ≠ [] ∨ t.isDir = true := Or.inl (by simp)
    rcases exec_writeEntries_cons hx with ⟨_, hfirst, -⟩ | ⟨_, s₁, _, hfirst, hall, -⟩
    · rw [← Path.below_concat] at hfirst
      have e := exec_writeWith_extends isSame root t ht hnames hne hfirst
      exact e.mono fun b => ⟨n, List.mem_cons_self, b⟩
    · rw [← Path.below_concat] at hfirst
      have e := exec_writeWith_extends isSame root t ht hnames hne hfirst
      have e' := exec_writeEntries_extends isSame root es hes hpre hall
      refine (e.mono fun b => ⟨n, List.mem_cons_self, b.extends e'⟩).trans (e'.mono ?_)
      rintro place ⟨m, hm, b⟩
      exact ⟨m, List.mem_cons_of_mem n hm, b⟩

end

/-! ### What is on disk in the end -/

mutual

/-- Whether no directory that is written counts as the same as something else that was there. -/
def tells (isSame : Tree β → Tree α → Bool) (previous : Option (Tree β)) : Tree α → Bool
  | .file .. => true
  | .dir l es => previous.all (fun a => !isSame a (.dir l es) || a.same (.dir l es)) &&
      tellsAll isSame previous es

/-- Whether no directory among some entries or below counts as the same as something else. -/
def tellsAll (isSame : Tree β → Tree α → Bool) (previous : Option (Tree β)) :
    List (String × Tree α) → Bool
  | [] => true
  | (n, t) :: es => tells isSame (previous.bind fun a => a.entry? n) t &&
      tellsAll isSame previous es

end

theorem tells_entries (h : tells isSame previous (.dir l es) = true) :
    tellsAll isSame previous es = true := by
  rw [tells, Bool.and_eq_true] at h
  exact h.2

theorem plain_of_tells {a : Tree β} (h : tells isSame (some a) (.dir l es) = true)
    (hsame : isSame a (.dir l es) = true) : a.plain = (Tree.dir l es).plain := by
  rw [tells, Bool.and_eq_true] at h
  refine (Tree.same_iff a _).mp ?_
  simpa [hsame] using h.1

/-- What becomes of a file on disk that has some contents in the tree and had others, or none, in
the tree before: it gets the new ones, but when they are those that it had before, it is left as it
is. -/
def Stored (d d' : Disk) (p : Path) (before : Option Bytes) (c : Bytes) : Prop :=
  if before = some c then ∀ b, d.contentsAt p = .ok b → d'.contentsAt p = .ok b
  else d'.contentsAt p = .ok c

theorem Stored.of_earlier {p : Path} {before : Option Bytes}
    (h : ∀ b, d.contentsAt p = .ok b → d'.contentsAt p = .ok b) (st : Stored d' d'' p before c) :
    Stored d d'' p before c := by
  unfold Stored at st ⊢
  split
  · rename_i hsame
    rw [if_pos hsame] at st
    exact fun b hb => st b (h b hb)
  · rename_i hother
    rwa [if_neg hother] at st

theorem Stored.later {p : Path} {before : Option Bytes}
    (h : ∀ b, d'.contentsAt p = .ok b → d''.contentsAt p = .ok b) (st : Stored d d' p before c) :
    Stored d d'' p before c := by
  unfold Stored at st ⊢
  split
  · rename_i hsame
    rw [if_pos hsame] at st
    exact fun b hb => h b (st b hb)
  · rename_i hother
    rw [if_neg hother] at st
    exact h c st

theorem Extends.beside {n : String} {ns : List String} {d d' : Disk}
    (e : Extends P d d') (hP : ∀ {place}, P place →
      ∃ m, m ≠ n ∧ Below root (pre ++ [m]) d' place) (hnames : Path.Names (pre ++ n :: ns)) :
    ∀ b, d.contentsAt (root.below (pre ++ n :: ns)) = .ok b →
      d'.contentsAt (root.below (pre ++ n :: ns)) = .ok b := by
  refine fun b hb => e.outside (fun hp => ?_) hnames (by simp) hb
  obtain ⟨m, hm, hbelow⟩ := hP hp
  refine ⟨pre ++ [m], fun hpre => ?_, hbelow⟩
  rw [List.prefix_append_right_inj] at hpre
  exact hm (List.cons_prefix_cons.mp hpre).1

mutual

/-- When writing a tree ends well, its files are stored. -/
theorem exec_writeWith_ok (isSame : Tree β → Tree α → Bool) (root : Path) : ∀ (t : Tree α)
    {previous : Option (Tree β)} {pre ns : List String} {s s' : Log} {summary : Summary}
    {c : Bytes}, t.Storable → Path.Names pre → tells isSame previous t = true →
      exec (writeWith isSame previous t (root.below pre)) s = (.ok summary, s') →
        (t.at? ns).bind Tree.contents? = some c →
          Stored s.disk s'.disk (root.below (pre ++ ns))
            ((previous.bind (Tree.at? ns)).bind Tree.contents?) c
  | .file l c', previous, pre, ns, s, s', summary, c, _, _, _, hx, hc => by
    cases ns with
    | cons n ns => cases hc
    | nil =>
        obtain rfl : c' = c := Option.some.inj hc
        have hprevious : previous.bind (Tree.at? []) = previous := by cases previous <;> rfl
        rw [List.append_nil, hprevious]
        unfold Stored
        rcases exec_writeWith_file hx with ⟨hsame, -, rfl⟩ | ⟨hother, -, hok⟩
        · rw [if_pos hsame]
          exact fun b hb => hb
        · rw [if_neg hother]
          exact (hok summary rfl).2
  | .dir l es, previous, pre, ns, s, s', summary, c, st, hpre, htell, hx, hc => by
    rw [Tree.Storable] at st
    rcases exec_writeWith_dir_eq_ok hx with ⟨a, rfl, hsame, -, hdisk⟩ | ⟨s₁, hmade, hall⟩
    · rw [Option.bind_some, Tree.contents_at?_of_plain (plain_of_tells htell hsame), hc, hdisk]
      unfold Stored
      rw [if_pos rfl]
      exact fun b hb => hb
    · cases ns with
      | nil => cases hc
      | cons n ns =>
          have stored := exec_writeEntries_ok isSame root es st hpre (tells_entries htell) hall
            (by simpa [Tree.at?, Tree.entry?] using hc)
          refine .of_earlier (fun b hb => ?_) stored
          obtain ⟨place, hr, -⟩ := contentsAt_eq_ok.mp hb
          exact (adds_makeDirs _ hmade).contentsAt hr not_false hb

/-- When writing entries ends well, their files are stored. -/
theorem exec_writeEntries_ok (isSame : Tree β → Tree α → Bool) (root : Path) :
    ∀ (es : List (String × Tree α)) {previous : Option (Tree β)} {pre ns : List String} {n : String}
    {s s' : Log} {summary : Summary} {c : Bytes}, Tree.StorableAll es → Path.Names pre →
      tellsAll isSame previous es = true →
      exec (writeEntries isSame previous es (root.below pre)) s = (.ok summary, s') →
        ((Entries.get? n es).bind (Tree.at? ns)).bind Tree.contents? = some c →
          Stored s.disk s'.disk (root.below (pre ++ n :: ns))
            ((previous.bind (Tree.at? (n :: ns))).bind Tree.contents?) c
  | [], previous, pre, ns, n, s, s', summary, c, _, _, _, _, hc => by cases hc
  | (m, t) :: es, previous, pre, ns, n, s, s', summary, c, st, hpre, htell, hx, hc => by
    obtain ⟨u, hu, -⟩ := Option.bind_eq_some_iff.mp hc
    obtain ⟨v, hv, hu⟩ := Option.bind_eq_some_iff.mp hu
    have hnames : Path.Names (pre ++ n :: ns) := by
      refine hpre.append ?_
      obtain ⟨hvalid, hst⟩ := st.get? hv
      exact (Path.names_singleton hvalid).append (hst.names hu)
    rw [Tree.StorableAll] at st
    obtain ⟨hvalid, hfresh, ht, hes⟩ := st
    rw [tellsAll, Bool.and_eq_true] at htell
    obtain ⟨first, s₁, rest, hfirst, hall, -⟩ := exec_writeEntries_cons_eq_ok hx
    rw [← Path.below_concat] at hfirst
    have hnames' := hpre.append (Path.names_singleton hvalid)
    have e := exec_writeWith_extends isSame root t ht hnames' (Or.inl (by simp)) hfirst
    have e' := exec_writeEntries_extends isSame root es hes hpre hall
    rw [Entries.get?] at hc
    by_cases hm : m = n
    · subst hm
      rw [if_pos rfl, Option.bind_some] at hc
      have stored := exec_writeWith_ok isSame root t ht hnames' htell.1 hfirst hc
      have hprevious : previous.bind (Tree.at? (m :: ns)) =
          (previous.bind fun a => a.entry? m).bind (Tree.at? ns) := by cases previous <;> rfl
      rw [List.append_assoc, List.singleton_append, ← hprevious] at stored
      refine stored.later (e'.beside (fun b => ?_) hnames)
      obtain ⟨k, hk, b⟩ := b
      exact ⟨k, fun h => hfresh (h ▸ hk), b⟩
    · rw [if_neg hm] at hc
      have stored := exec_writeEntries_ok isSame root es hes hpre htell.2 hall hc
      exact stored.of_earlier (e.beside (fun b => ⟨m, hm, b⟩) hnames)

end

end Disk

end PackageOutline
