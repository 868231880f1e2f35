import PackageOutline.Disk.Basic
import PackageOutline.Proofs.Disk.Names
import PackageOutline.Proofs.Exec

/-! # Places

Where paths lead on a disk, and what becomes of it when the disk changes.

`Disk.Extends P d d'` is what all changes of a program have in common: what is there stays there and
stays a file or a directory, and only files at places of `P` get other contents.  Then paths lead
where they led before (`Extends.resolve`).

`resolve_below`: below one path, names lead to places that end with the names. -/

namespace PackageOutline

namespace DiskNode

variable {n m new : DiskNode} {place parent : List Bytes} {name : Bytes}

theorem find?_append (p q : List Bytes) (n : DiskNode) :
    n.find? (p ++ q) = (n.find? p).bind (find? q) := by
  induction p generalizing n with
  | nil => rfl
  | cons a p ih =>
      cases n with
      | file c => rfl
      | dir es =>
          rw [List.cons_append, find?, find?]
          cases Entries.get? a es with
          | none => rfl
          | some m => exact ih m

theorem find?_concat {es : List (Bytes × DiskNode)} (hp : n.find? place = some (.dir es))
    (name : Bytes) : n.find? (place ++ [name]) = Entries.get? name es := by
  rw [find?_append, hp, Option.bind_some, find?]
  cases Entries.get? name es <;> rfl

theorem isDir_of_find? {es : List (Bytes × DiskNode)} (h : n.find? place = some (.dir es)) :
    n.isDir = true := by
  cases n with
  | dir fs => rfl
  | file c => cases place <;> cases h

theorem find?_set_self (a : Bytes) (k : DiskNode) (es : List (Bytes × DiskNode)) (rest : List Bytes) :
    (dir (Entries.set a k es)).find? (a :: rest) = k.find? rest := by
  rw [find?, Entries.get?_set_self]
  rfl

theorem find?_set_of_ne {a b : Bytes} (hb : b ≠ a) (k : DiskNode) (es : List (Bytes × DiskNode))
    (rest : List Bytes) : (dir (Entries.set a k es)).find? (b :: rest) = (dir es).find? (b :: rest) := by
  rw [find?, find?, Entries.get?_set_of_ne hb]

/-- What is there stays there when something is put in a directory that is there, unless it replaces
a directory or a file by something of the other kind. -/
theorem find?_replace {es : List (Bytes × DiskNode)} (hdir : n.find? parent = some (.dir es))
    (hold : ∀ m, n.find? (parent ++ [name]) = some m → m.isDir = false ∧ new.isDir = false)
    (hm : n.find? place = some m) :
    ∃ m', (replace new (parent ++ [name]) n).find? place = some m' ∧ m'.isDir = m.isDir ∧
      (place ≠ parent ++ [name] → m.isDir = false → m' = m) := by
  induction parent generalizing n place with
  | nil =>
      obtain rfl := Option.some.inj hdir
      rw [List.nil_append, replace]
      cases place with
      | nil =>
          obtain rfl := Option.some.inj hm
          exact ⟨_, rfl, rfl, fun _ hd => by cases hd⟩
      | cons b rest =>
          by_cases hb : b = name
          · subst hb
            rw [find?] at hm
            obtain ⟨k, hk, hrest⟩ := Option.bind_eq_some_iff.mp hm
            obtain ⟨hfile, hnew⟩ := hold k (by rw [List.nil_append, find?, hk]; rfl)
            cases k with
            | dir fs => cases hfile
            | file c =>
                cases rest with
                | cons a rest => cases hrest
                | nil =>
                    obtain rfl := Option.some.inj hrest
                    exact ⟨new, find?_set_self .., hnew, fun hne => absurd rfl hne⟩
          · exact ⟨m, by rw [find?_set_of_ne hb, hm], rfl, fun _ _ => rfl⟩
  | cons a as ih =>
      cases n with
      | file c => cases hdir
      | dir fs =>
          rw [find?] at hdir
          obtain ⟨k, hk, has⟩ := Option.bind_eq_some_iff.mp hdir
          rw [List.cons_append, replace, hk, Option.getD_some]
          cases place with
          | nil =>
              obtain rfl := Option.some.inj hm
              exact ⟨_, rfl, rfl, fun _ hd => by cases hd⟩
          | cons b rest =>
              by_cases hb : b = a
              · subst hb
                rw [find?] at hm
                obtain ⟨l, hl, hrest⟩ := Option.bind_eq_some_iff.mp hm
                rw [hk] at hl
                obtain rfl := Option.some.inj hl
                have hold' : ∀ m, k.find? (as ++ [name]) = some m →
                    m.isDir = false ∧ new.isDir = false := by
                  intro m hm
                  refine hold m ?_
                  rw [List.cons_append, find?, hk]
                  exact hm
                obtain ⟨m', hm', hkind, hsame⟩ := ih has hold' hrest
                refine ⟨m', ?_, hkind, fun hne => hsame fun e => hne (e ▸ rfl)⟩
                rw [find?_set_self, hm']
              · exact ⟨m, by rw [find?_set_of_ne hb, hm], rfl, fun _ _ => rfl⟩

end DiskNode

namespace Disk

variable {d d' d'' : Disk} {P : List Bytes → Prop} {p root : Path} {c : Bytes}
  {place r : List Bytes} {names : List String}

/-! ### Where paths lead -/

theorem walk_append (d : Disk) (place : List Bytes) (ps qs : List Bytes) :
    d.walk place (ps ++ qs) = (d.walk place ps).bind (d.walk · qs) := by
  induction ps generalizing place with
  | nil => rfl
  | cons p ps ih =>
      rw [List.cons_append, walk, walk]
      cases d.step place p with
      | error e => rfl
      | ok place' => exact ih place'

theorem stat_eq_ok {n : DiskNode} :
    d.stat p = .ok n ↔ ∃ place, d.resolve p = .ok place ∧ d.top.find? place = some n := by
  unfold stat
  rw [bind_eq_ok]
  refine exists_congr fun place => and_congr_right fun _ => ?_
  cases d.top.find? place <;> simp

theorem contentsAt_eq_ok : d.contentsAt p = .ok c ↔
    ∃ place, d.resolve p = .ok place ∧ d.top.find? place = some (.file c) := by
  unfold contentsAt stat
  simp only [bind_eq_ok]
  constructor
  · rintro ⟨n, ⟨place, hplace, hn⟩, hc⟩
    refine ⟨place, hplace, ?_⟩
    split at hn
    · rename_i m hm
      obtain rfl := Except.ok.inj hn
      rw [hm]
      split at hc
      · rw [Except.ok.inj hc]
      · cases hc
    · cases hn
  · rintro ⟨place, hplace, hfile⟩
    refine ⟨.file c, ⟨place, hplace, ?_⟩, rfl⟩
    rw [hfile]

/-- A step leads on from a directory: it stays there, goes up, or goes to an entry. -/
theorem step_eq_ok {piece : Bytes} : d.step place piece = .ok r ↔
    ∃ es, d.top.find? place = some (.dir es) ∧ ((piece = [] ∨ piece = Path.dot) ∧ r = place ∨
      piece = Path.dotDot ∧ r = place.dropLast ∨
      Path.isName piece = true ∧ piece.length ≤ maxName ∧ Entries.has piece es = true ∧
        r = place ++ [piece]) := by
  have hname : Path.isName piece = true ↔
      ¬ (piece = [] ∨ piece = Path.dot) ∧ piece ≠ Path.dotDot := by
    simp [Path.isName, not_or]
  unfold step
  rcases hfind : d.top.find? place with _ | ⟨_ | es⟩
  · simp
  · simp
  · simp only [Option.some.injEq, DiskNode.dir.injEq, exists_eq_left', hname]
    by_cases hidle : piece = [] ∨ piece = Path.dot
    · have hup : piece ≠ Path.dotDot := by
        rintro rfl
        revert hidle
        decide
      rw [if_pos hidle, Except.ok.injEq, @eq_comm _ place]
      simp [hidle, hup]
    · rw [if_neg hidle]
      by_cases hup : piece = Path.dotDot
      · rw [if_pos hup, Except.ok.injEq, @eq_comm _ _ r]
        have hstay : ¬ (Path.dotDot = [] ∨ Path.dotDot = Path.dot) := by decide
        simp [hup, hstay]
      · rw [if_neg hup]
        by_cases hlen : maxName < piece.length
        · simp [hidle, hup, hlen, Nat.not_le.mpr hlen]
        · rw [if_neg hlen]
          by_cases hhas : Entries.has piece es = true
          · rw [if_pos hhas, Except.ok.injEq, @eq_comm _ _ r]
            simp [hidle, hup, hhas, Nat.not_lt.mp hlen]
          · simp [hidle, hup, hhas]

theorem step_name {piece : Bytes} (hp : Path.isName piece = true) :
    d.step place piece = .ok r ↔ ∃ es, d.top.find? place = some (.dir es) ∧
      piece.length ≤ maxName ∧ Entries.has piece es = true ∧ r = place ++ [piece] := by
  rw [step_eq_ok]
  simp only [Path.isName, Bool.and_eq_true, bne_iff_ne, ne_eq] at hp
  simp [Path.isName, hp]

theorem walk_names (h : Path.Names names) (hw : d.walk place (names.map Utf8.encode) = .ok r) :
    r = place ++ names.map Utf8.encode := by
  induction names generalizing place with
  | nil =>
      rw [← Except.ok.inj hw, List.map_nil, List.append_nil]
  | cons n names ih =>
      rw [List.map_cons, walk] at hw
      obtain ⟨place', hs, hw⟩ := bind_eq_ok.mp hw
      obtain ⟨es, -, -, -, rfl⟩ := (step_name (Path.piece_of_isValid h.head).1).mp hs
      rw [ih h.tail hw, List.map_cons, List.append_assoc, List.singleton_append]

/-- Names below a path lead to where the path leads, and then follow the names. -/
theorem resolve_below (h : Path.Names names) (hne : names ≠ [])
    (hr : d.resolve (root.below names) = .ok r) :
    ∃ top, d.walk [] root.stem = .ok top ∧ r = top ++ names.map Utf8.encode := by
  unfold resolve at hr
  obtain ⟨-, -, hw⟩ := bind_eq_ok.mp hr
  rw [Path.pieces_below root h hne, walk_append] at hw
  obtain ⟨top, htop, hw⟩ := bind_eq_ok.mp hw
  exact ⟨top, htop, walk_names h hw⟩

/-! ### Disks that were added to -/

/-- What is there stays there and what it is, and files other than those at places of `P` keep their
contents. -/
structure Extends (P : List Bytes → Prop) (d d' : Disk) : Prop where
  stays : ∀ {place n}, d.top.find? place = some n →
    ∃ n', d'.top.find? place = some n' ∧ n'.isDir = n.isDir
  files : ∀ {place c}, ¬ P place → d.top.find? place = some (.file c) →
    d'.top.find? place = some (.file c)

namespace Extends

theorem refl (P : List Bytes → Prop) (d : Disk) : Extends P d d :=
  ⟨fun h => ⟨_, h, rfl⟩, fun _ h => h⟩

theorem of_top (h : d'.top = d.top) : Extends P d d' :=
  ⟨fun hn => ⟨_, h ▸ hn, rfl⟩, fun _ hc => h ▸ hc⟩

theorem trans (e : Extends P d d') (e' : Extends P d' d'') : Extends P d d'' := by
  refine ⟨fun hn => ?_, fun hp hc => e'.files hp (e.files hp hc)⟩
  obtain ⟨n', hn', hkind⟩ := e.stays hn
  obtain ⟨n'', hn'', hkind'⟩ := e'.stays hn'
  exact ⟨n'', hn'', hkind'.trans hkind⟩

theorem mono {Q : List Bytes → Prop} (e : Extends P d d') (h : ∀ {place}, P place → Q place) :
    Extends Q d d' :=
  ⟨e.stays, fun hq hc => e.files (fun hp => hq (h hp)) hc⟩

theorem step (e : Extends P d d') {piece : Bytes} (hs : d.step place piece = .ok r) :
    d'.step place piece = .ok r := by
  obtain ⟨es, hes, hstep⟩ := step_eq_ok.mp hs
  obtain ⟨n', hn', hkind⟩ := e.stays hes
  cases n' with
  | file c => cases hkind
  | dir fs =>
      refine step_eq_ok.mpr ⟨fs, hn', ?_⟩
      rcases hstep with hidle | hup | ⟨hname, hlen, hhas, hr⟩
      · exact Or.inl hidle
      · exact Or.inr (Or.inl hup)
      · obtain ⟨m, hm⟩ := Option.isSome_iff_exists.mp hhas
        rw [← DiskNode.find?_concat hes] at hm
        obtain ⟨m', hm', -⟩ := e.stays hm
        rw [DiskNode.find?_concat hn'] at hm'
        exact Or.inr (Or.inr ⟨hname, hlen, Option.isSome_iff_exists.mpr ⟨m', hm'⟩, hr⟩)

theorem walk (e : Extends P d d') {pieces : List Bytes} (hw : d.walk place pieces = .ok r) :
    d'.walk place pieces = .ok r := by
  induction pieces generalizing place with
  | nil => exact hw
  | cons p ps ih =>
      rw [Disk.walk] at hw ⊢
      obtain ⟨place', hs, hw⟩ := bind_eq_ok.mp hw
      exact bind_eq_ok.mpr ⟨place', e.step hs, ih hw⟩

/-- Paths lead where they led. -/
theorem resolve (e : Extends P d d') (hr : d.resolve p = .ok r) : d'.resolve p = .ok r := by
  unfold Disk.resolve at hr ⊢
  obtain ⟨u, hcheck, hw⟩ := bind_eq_ok.mp hr
  exact bind_eq_ok.mpr ⟨u, hcheck, e.walk hw⟩

theorem exists_contentsAt (e : Extends P d d') (hc : d.contentsAt p = .ok c) :
    ∃ c', d'.contentsAt p = .ok c' := by
  obtain ⟨place, hplace, hfile⟩ := contentsAt_eq_ok.mp hc
  obtain ⟨n', hn', hkind⟩ := e.stays hfile
  cases n' with
  | dir es => cases hkind
  | file c' => exact ⟨c', contentsAt_eq_ok.mpr ⟨place, e.resolve hplace, hn'⟩⟩

theorem contentsAt (e : Extends P d d') (hr : d.resolve p = .ok place) (hp : ¬ P place)
    (hc : d.contentsAt p = .ok c) : d'.contentsAt p = .ok c := by
  obtain ⟨place', hplace, hfile⟩ := contentsAt_eq_ok.mp hc
  rw [hr] at hplace
  obtain rfl := Except.ok.inj hplace
  exact contentsAt_eq_ok.mpr ⟨place, e.resolve hr, e.files hp hfile⟩

end Extends

end Disk

end PackageOutline
