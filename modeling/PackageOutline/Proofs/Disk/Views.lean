import Mathlib.Data.List.Induction
import PackageOutline.Proofs.Disk.Changes

/-! # What is seen on a disk

Without links, a path that leads somewhere leads to one place only (`Path.place`), whatever the disk.
So what changes do to a disk can be said place by place: `Disk.Altered F D` means that everything is as
it was, except that files were written at places of `F`, where no directory was, and directories were
made at places of `D`, where nothing was.  In particular nothing is gone.

* `altered_setFile`: writing a file alters its place only.
* `altered_makeDirs`: making directories alters places on the way only (`Path.OnWay`).
* `exec_makeDirs_ok`: directories that were made are there. -/

namespace PackageOutline

namespace Path

variable {p q : Path} {names : List String} {n : String}

/-! ### Where paths lead at most -/

/-- Where pieces lead from a place. -/
def lead : (place pieces : List Bytes) → List Bytes
  | place, [] => place
  | place, piece :: pieces =>
    lead (if isName piece then place ++ [piece]
      else if piece = dotDot then place.dropLast else place) pieces

/-- The place that a path leads to, if it leads anywhere. -/
def place (p : Path) : List Bytes := lead [] p.pieces

theorem lead_append (place ps qs : List Bytes) :
    lead place (ps ++ qs) = lead (lead place ps) qs := by
  induction ps generalizing place with
  | nil => rfl
  | cons p ps ih => exact ih _

theorem lead_concat_name {piece : Bytes} (hp : isName piece = true) (place ps : List Bytes) :
    lead place (ps ++ [piece]) = lead place ps ++ [piece] := by
  rw [lead_append, lead, if_pos hp]
  rfl

theorem lead_concat_idle {piece : Bytes} (hp : isIdle piece = true) (place ps : List Bytes) :
    lead place (ps ++ [piece]) = lead place ps := by
  rw [isIdle, Bool.or_eq_true, beq_iff_eq, beq_iff_eq] at hp
  rw [lead_append]
  rcases hp with rfl | rfl <;> rfl

theorem lead_idle {ps : List Bytes} (hp : ∀ piece ∈ ps, isIdle piece = true) (place : List Bytes) :
    lead place ps = place := by
  induction ps using List.reverseRecOn with
  | nil => rfl
  | append_singleton ps piece ih =>
      rw [lead_concat_idle (hp piece (by simp)), ih fun q hq => hp q (by simp [hq])]

theorem lead_names (h : Names names) (place : List Bytes) :
    lead place (names.map Utf8.encode) = place ++ names.map Utf8.encode := by
  induction names generalizing place with
  | nil => simp [lead]
  | cons n names ih =>
      rw [List.map_cons, lead, if_pos (piece_of_isValid h.head).1, ih h.tail, List.append_assoc]
      rfl

theorem pieces_eq_stem (p : Path) : p.pieces = p.stem ∨ p.pieces = p.stem ++ [[]] := by
  unfold stem
  split
  · rename_i hempty
    right
    simp [pieces, hempty]
  · split
    · rename_i hslash
      right
      obtain ⟨bs, hbs⟩ := List.getLast?_eq_some_iff.mp hslash
      rw [pieces, hbs, List.splitOn_append_cons_self]
      simp
    · exact .inl rfl

theorem lead_stem (p : Path) : lead [] p.stem = p.place := by
  rcases p.pieces_eq_stem with h | h
  · rw [place, h]
  · rw [place, h, lead_concat_idle (by decide)]

theorem place_below (p : Path) (h : Names names) :
    (p.below names).place = p.place ++ names.map Utf8.encode := by
  by_cases hne : names = []
  · subst hne
    rw [List.map_nil, List.append_nil]
    rfl
  · rw [place, pieces_below p h hne, lead_append, lead_stem, lead_names h]

theorem place_join (p : Path) (h : Identifier.isValid n = true) :
    (p.join (Utf8.encode n)).place = p.place ++ [Utf8.encode n] :=
  p.place_below (names_singleton h)

theorem names_of_place {names' : List String} (h : Names names) (h' : Names names')
    (heq : (p.below names).place = (p.below names').place) : names = names' := by
  rw [p.place_below h, p.place_below h'] at heq
  exact Utf8.map_encode_injective (List.append_cancel_left heq)

/-! ### The way to a path -/

/-- The places that a path passes, its own included. -/
def OnWay (p : Path) (place : List Bytes) : Prop := ∃ ps, ps <+: p.pieces ∧ lead [] ps = place

theorem onWay_place (p : Path) : p.OnWay p.place := ⟨p.pieces, List.prefix_rfl, rfl⟩

theorem onWay_of_idle {place : List Bytes} (hp : ∀ piece ∈ p.pieces, isIdle piece = true)
    (h : p.OnWay place) : place = [] := by
  obtain ⟨ps, hps, rfl⟩ := h
  exact lead_idle (fun piece hmem => hp piece (hps.subset hmem)) []

theorem onWay_nil (p : Path) : p.OnWay [] := ⟨[], List.nil_prefix, rfl⟩

theorem onWay_join {place : List Bytes} (h : Identifier.isValid n = true)
    (hw : (p.join (Utf8.encode n)).OnWay place) :
    p.OnWay place ∨ place = (p.join (Utf8.encode n)).place := by
  obtain ⟨ps, hps, rfl⟩ := hw
  rw [pieces_join p (piece_of_isValid h).2, List.prefix_concat_iff] at hps
  rcases hps with rfl | hps
  · right
    rw [place, pieces_join p (piece_of_isValid h).2]
  · refine .inl ⟨ps, hps.trans ?_, rfl⟩
    rcases p.pieces_eq_stem with hp | hp
    · exact hp ▸ List.prefix_rfl
    · exact hp ▸ List.prefix_append _ _

/-- A path below another passes what that one passes, and then what lies on the names. -/
theorem onWay_below {place : List Bytes} (h : Names names) (hw : (p.below names).OnWay place) :
    p.OnWay place ∨ ∃ ns ms, names = ns ++ ms ∧ place = (p.below ns).place := by
  induction names using List.reverseRecOn with
  | nil => exact .inl hw
  | append_singleton names n ih =>
      have hvalid : Identifier.isValid n = true := h n (by simp)
      rw [below_concat] at hw
      rcases onWay_join hvalid hw with hw | rfl
      · rcases ih (fun m hm => h m (by simp [hm])) hw with hw | ⟨ns, ms, rfl, rfl⟩
        · exact .inl hw
        · exact .inr ⟨ns, ms ++ [n], List.append_assoc .., rfl⟩
      · exact .inr ⟨names ++ [n], [], (List.append_nil _).symm, by rw [below_concat]⟩

theorem slash_not_mem_of_mem_pieces {piece : Bytes} (h : piece ∈ p.pieces) : slash ∉ piece := by
  have hsplit : ∀ bs : Bytes, ∀ piece ∈ bs.splitOn slash, slash ∉ piece := by
    intro bs
    induction bs with
    | nil => simp
    | cons b bs ih =>
        rw [List.splitOn_cons_eq_if_modifyHead]
        split
        · simpa using ih
        · rename_i hb
          cases hs : bs.splitOn slash with
          | nil => exact absurd hs (List.splitOn_ne_nil slash bs)
          | cons q qs =>
              rw [hs, List.forall_mem_cons] at ih
              have hb : slash ≠ b := fun e => hb (beq_iff_eq.mpr e.symm)
              simpa [hb, ih.1] using ih.2
  exact hsplit p.bytes piece h

theorem prefix_of_dropWhile {ps above : List Bytes} {last : Bytes}
    (h : ps.reverse.dropWhile isIdle = last :: above) :
    (above.dropWhile isIdle).reverse <+: ps := by
  have hsuffix : above.dropWhile isIdle <:+ ps.reverse :=
    (List.dropWhile_suffix _).trans ((List.suffix_cons last above).trans
      (h ▸ List.dropWhile_suffix _))
  have hprefix := List.reverse_prefix.mpr hsuffix
  rwa [List.reverse_reverse] at hprefix

theorem pieces_intercalate {ps : List Bytes} (h : ps <+: p.pieces) (hne : ps ≠ []) :
    pieces ⟨[slash].intercalate ps⟩ = ps :=
  List.splitOn_intercalate slash (fun _ hmem => slash_not_mem_of_mem_pieces (h.subset hmem)) hne

theorem pieces_slash_cons (bs : Bytes) : pieces ⟨slash :: bs⟩ = [] :: pieces ⟨bs⟩ := by
  rw [pieces, List.splitOn_cons_eq_if_modifyHead, if_pos (beq_self_eq_true slash)]
  rfl

/-- The path above a path is made of its first pieces, or leads nowhere else. -/
theorem pieces_parent (hq : p.parent? = some q) :
    q.pieces <+: p.pieces ∨ ∀ piece ∈ q.pieces, isIdle piece = true := by
  have hidle : (∀ piece ∈ pieces ⟨[slash]⟩, isIdle piece = true) ∧
      (∀ piece ∈ pieces ⟨[]⟩, isIdle piece = true) ∧ ∀ piece ∈ pieces ⟨dot⟩, isIdle piece = true := by
    decide
  obtain ⟨hroot, hempty, hdot⟩ := hidle
  unfold parent? at hq
  cases habs : p.isAbsolute with
  | false =>
      simp only [habs, Bool.false_eq_true, if_false, Bool.not_false, Bool.true_and,
        List.nil_append] at hq
      split at hq
      · split at hq
        · obtain rfl := Option.some.inj hq
          exact .inr hempty
        · cases hq
      · rename_i last above habove
        split at hq
        · obtain rfl := Option.some.inj hq
          right
          split
          · exact hdot
          · exact hempty
        · rename_i hne
          obtain rfl := Option.some.inj hq
          have hprefix := prefix_of_dropWhile habove
          rw [pieces_intercalate hprefix (by simpa using hne)]
          exact .inl hprefix
  | true =>
      simp only [habs, if_true, Bool.not_true, Bool.false_and, Bool.false_eq_true, if_false] at hq
      split at hq
      · cases hq
      · rename_i last above habove
        split at hq
        · obtain rfl := Option.some.inj hq
          exact .inr hroot
        · rename_i hne
          obtain rfl := Option.some.inj hq
          obtain ⟨bs, hbs⟩ : ∃ bs, p.bytes = slash :: bs := by
            rw [isAbsolute, beq_iff_eq] at habs
            exact List.head?_eq_some_iff.mp habs
          have hpieces : p.pieces = [] :: pieces ⟨bs⟩ := by
            rw [← pieces_slash_cons, ← hbs]
          rw [hpieces] at habove
          have hprefix := prefix_of_dropWhile habove
          left
          rw [hpieces, List.singleton_append, pieces_slash_cons,
            pieces_intercalate (p := ⟨bs⟩) hprefix (by simpa using hne)]
          exact (List.prefix_cons_inj []).mpr hprefix

theorem onWay_parent (hq : p.parent? = some q) {place : List Bytes} (hw : q.OnWay place) :
    p.OnWay place := by
  rcases pieces_parent hq with hprefix | hidle
  · obtain ⟨ps, hps, rfl⟩ := hw
    exact ⟨ps, hps.trans hprefix, rfl⟩
  · rw [onWay_of_idle hidle hw]
    exact p.onWay_nil

end Path

/-- What is seen at a place. -/
inductive View where
  | nothing
  | directory
  | file (contents : Bytes)
deriving DecidableEq, Repr

/-- What is seen of a file with some contents, or of a directory. -/
def View.ofContents : Option Bytes → View
  | some c => .file c
  | none => .directory

theorem View.ofContents_injective {c c' : Option Bytes} (h : ofContents c = ofContents c') :
    c = c' := by
  cases c <;> cases c' <;> simp_all [ofContents]

theorem View.ofContents_ne_nothing (c : Option Bytes) : ofContents c ≠ .nothing := by
  cases c <;> exact fun h => by cases h

namespace DiskNode

variable {n new : DiskNode} {place parent : List Bytes} {name : Bytes}

/-- What is seen of a node, if there is one. -/
def view : Option DiskNode → View
  | none => .nothing
  | some (.dir _) => .directory
  | some (.file c) => .file c

theorem view_eq_directory_iff {m : Option DiskNode} :
    view m = .directory ↔ ∃ es, m = some (.dir es) := by
  rcases m with _ | ⟨_ | _⟩ <;> simp [view]

theorem view_eq_file_iff {m : Option DiskNode} {c : Bytes} :
    view m = .file c ↔ m = some (.file c) := by
  rcases m with _ | ⟨_ | _⟩ <;> simp [view]

theorem view_eq_nothing_iff {m : Option DiskNode} : view m = .nothing ↔ m = none := by
  rcases m with _ | ⟨_ | _⟩ <;> simp [view]

theorem find?_append_of_not_dir {rest : List Bytes} (hne : rest ≠ [])
    (h : view (n.find? place) ≠ .directory) : n.find? (place ++ rest) = none := by
  rw [find?_append]
  obtain ⟨b, rest, rfl⟩ := List.exists_cons_of_ne_nil hne
  rcases hm : n.find? place with _ | ⟨_ | es⟩
  · rfl
  · rfl
  · exact absurd (view_eq_directory_iff.mpr ⟨es, hm⟩) h

theorem view_replace {es : List (Bytes × DiskNode)} (hdir : n.find? parent = some (.dir es))
    (hne : ¬ parent ++ [name] <+: place) :
    view ((replace new (parent ++ [name]) n).find? place) = view (n.find? place) := by
  induction parent generalizing n place with
  | nil =>
      obtain rfl := Option.some.inj hdir
      rw [List.nil_append, replace]
      cases place with
      | nil => rfl
      | cons b rest =>
          have hb : b ≠ name := by
            rintro rfl
            exact hne (List.prefix_append [b] rest)
          rw [find?_set_of_ne hb]
  | cons a as ih =>
      cases n with
      | file c => cases hdir
      | dir fs =>
          rw [find?] at hdir
          obtain ⟨k, hk, has⟩ := Option.bind_eq_some_iff.mp hdir
          rw [List.cons_append, replace, hk, Option.getD_some]
          cases place with
          | nil => rfl
          | cons b rest =>
              by_cases hb : b = a
              · subst hb
                rw [find?_set_self, find?, hk]
                refine ih has fun hpre => hne ?_
                rw [List.cons_append, List.cons_prefix_cons]
                exact ⟨rfl, hpre⟩
              · rw [find?_set_of_ne hb]

end DiskNode

namespace Disk

variable {d d' d'' : Disk} {p : Path} {c : Bytes} {place r : List Bytes}
  {F G : List Bytes → Bytes → Prop} {D E : List Bytes → Prop}

/-! ### Paths and places -/

theorem walk_eq_lead {pieces : List Bytes} (hw : d.walk place pieces = .ok r) :
    r = Path.lead place pieces := by
  induction pieces generalizing place with
  | nil => exact (Except.ok.inj hw).symm
  | cons piece pieces ih =>
      rw [walk] at hw
      obtain ⟨place', hs, hw⟩ := bind_eq_ok.mp hw
      rw [ih hw, Path.lead]
      congr 1
      obtain ⟨es, -, ⟨hidle, rfl⟩ | ⟨rfl, rfl⟩ | ⟨hname, -, -, rfl⟩⟩ := step_eq_ok.mp hs
      · rcases hidle with rfl | rfl <;> rfl
      · rfl
      · rw [if_pos hname]

theorem resolve_eq_place (hr : d.resolve p = .ok r) : r = p.place := by
  unfold resolve at hr
  obtain ⟨-, -, hw⟩ := bind_eq_ok.mp hr
  exact walk_eq_lead hw

theorem isDir_iff : d.isDir p = true ↔
    ∃ place es, d.resolve p = .ok place ∧ d.top.find? place = some (.dir es) := by
  unfold isDir
  constructor
  · intro h
    split at h
    · rename_i n hn
      obtain ⟨place, hplace, hn⟩ := stat_eq_ok.mp hn
      cases n with
      | file c => cases h
      | dir es => exact ⟨place, es, hplace, hn⟩
    · cases h
  · rintro ⟨place, es, hplace, hes⟩
    rw [stat_eq_ok.mpr ⟨place, hplace, hes⟩]
    rfl

theorem target_place {t : Target} {name : Bytes} (ht : d.target p = .ok t)
    (hname : t.name = some name) : t.parent ++ [name] = p.place := by
  obtain ⟨-, -, -, hpiece, above, empties, hpieces, hempties, -, hw⟩ := target_eq_ok ht hname
  have hidle : ∀ piece ∈ empties, Path.isIdle piece = true := by
    intro piece hmem
    rw [hempties piece hmem]
    rfl
  rw [Path.place, hpieces, List.append_cons above, Path.lead_append, Path.lead_concat_name hpiece,
    ← walk_eq_lead hw, Path.lead_idle hidle]

theorem isDir_put {t : Target} {name : Bytes} (ht : d.target p = .ok t)
    (hname : t.name = some name) (hfree : d.top.find? (t.parent ++ [name]) = none) :
    (d.put t.parent name (.dir [])).isDir p = true := by
  obtain ⟨hcheck, ⟨es, hes⟩, hlen, hpiece, above, empties, hpieces, hempties, -, hw⟩ :=
    target_eq_ok ht hname
  have hold : ∀ m, d.top.find? (t.parent ++ [name]) = some m →
      m.isDir = false ∧ (DiskNode.dir []).isDir = false := by
    intro m hm
    rw [hfree] at hm
    cases hm
  have e := extends_put hes hold
  have hself : (d.put t.parent name (.dir [])).top.find? (t.parent ++ [name]) = some (.dir []) :=
    find?_put_self hes
  have hstep := step_put hes hlen hpiece hold
  have hstay : ∀ empties : List Bytes, (∀ piece ∈ empties, piece = []) →
      (d.put t.parent name (.dir [])).walk (t.parent ++ [name]) empties =
        .ok (t.parent ++ [name]) := by
    intro empties hempties
    induction empties with
    | nil => rfl
    | cons piece empties ih =>
        rw [List.forall_mem_cons] at hempties
        rw [walk]
        refine bind_eq_ok.mpr ⟨_, ?_, ih hempties.2⟩
        exact step_eq_ok.mpr ⟨[], hself, .inl ⟨.inl hempties.1, rfl⟩⟩
  refine isDir_iff.mpr ⟨t.parent ++ [name], [], ?_, hself⟩
  unfold resolve
  refine bind_eq_ok.mpr ⟨(), hcheck, ?_⟩
  rw [hpieces, walk_append, e.walk hw]
  show (d.put t.parent name (.dir [])).walk t.parent (name :: empties) = _
  rw [walk]
  exact bind_eq_ok.mpr ⟨_, hstep, hstay empties hempties⟩

/-! ### Places that were altered -/

/-- What is seen at a place of a disk. -/
def view (d : Disk) (place : List Bytes) : View := DiskNode.view (d.top.find? place)

/-- The way to a directory passes directories. -/
theorem view_onWay (hdir : d.isDir p = true) (hway : p.OnWay place) :
    d.view place = .directory := by
  obtain ⟨last, es, hr, hes⟩ := isDir_iff.mp hdir
  unfold resolve at hr
  obtain ⟨-, -, hw⟩ := bind_eq_ok.mp hr
  obtain ⟨ps, ⟨qs, hpieces⟩, rfl⟩ := hway
  rw [← hpieces, walk_append] at hw
  obtain ⟨place, hplace, hw⟩ := bind_eq_ok.mp hw
  rw [← walk_eq_lead hplace]
  cases qs with
  | nil =>
      obtain rfl := Except.ok.inj hw
      exact DiskNode.view_eq_directory_iff.mpr ⟨es, hes⟩
  | cons q qs =>
      obtain ⟨_, hstep, -⟩ := bind_eq_ok.mp hw
      obtain ⟨fs, hfs, -⟩ := step_eq_ok.mp hstep
      exact DiskNode.view_eq_directory_iff.mpr ⟨fs, hfs⟩

theorem view_of_contentsAt (h : d.contentsAt p = .ok c) : d.view p.place = .file c := by
  obtain ⟨place, hr, hfile⟩ := contentsAt_eq_ok.mp h
  rw [← resolve_eq_place hr]
  exact DiskNode.view_eq_file_iff.mpr hfile

/-- Everything is as it was, except that files were written at places of `F`, where no directory was,
and directories were made at places of `D`, where nothing was. -/
def Altered (F : List Bytes → Bytes → Prop) (D : List Bytes → Prop) (d d' : Disk) : Prop :=
  ∀ place, d'.view place = d.view place ∨
    (∃ c, F place c ∧ d.view place ≠ .directory ∧ d'.view place = .file c) ∨
    (D place ∧ d.view place = .nothing ∧ d'.view place = .directory)

namespace Altered

theorem refl (F : List Bytes → Bytes → Prop) (D : List Bytes → Prop) (d : Disk) : Altered F D d d :=
  fun _ => .inl rfl

theorem of_top (h : d'.top = d.top) : Altered F D d d' := by
  intro place
  rw [view, view, h]
  exact .inl rfl

theorem mono (a : Altered F D d d') (hF : ∀ {place c}, F place c → G place c)
    (hD : ∀ {place}, D place → E place) : Altered G E d d' := by
  intro place
  rcases a place with h | ⟨c, hf, h⟩ | ⟨hd, h⟩
  · exact .inl h
  · exact .inr (.inl ⟨c, hF hf, h⟩)
  · exact .inr (.inr ⟨hD hd, h⟩)

theorem refine (a : Altered F D d d')
    (hF : ∀ {place c}, F place c → G place c ∨ d.view place = .file c) : Altered G D d d' := by
  intro place
  rcases a place with h | ⟨c, hf, hdir, h⟩ | hD
  · exact .inl h
  · rcases hF hf with hg | hsame
    · exact .inr (.inl ⟨c, hg, hdir, h⟩)
    · exact .inl (h.trans hsame.symm)
  · exact .inr (.inr hD)

theorem refine_made (a : Altered F D d d')
    (hD : ∀ {place}, D place → d.view place = .nothing → E place) : Altered F E d d' := by
  intro place
  rcases a place with h | hF | ⟨hd, hnone, h⟩
  · exact .inl h
  · exact .inr (.inl hF)
  · exact .inr (.inr ⟨hD hd hnone, hnone, h⟩)

theorem trans (a : Altered F D d d') (a' : Altered F D d' d'') : Altered F D d d'' := by
  intro place
  rcases a' place with h' | ⟨c', hf', hdir', h'⟩ | ⟨hd', hnone', h'⟩
  · rw [h']
    exact a place
  · refine .inr (.inl ⟨c', hf', fun hdir => ?_, h'⟩)
    rcases a place with h | ⟨c, -, hno, -⟩ | ⟨-, hnone, -⟩
    · exact hdir' (h.trans hdir)
    · exact hno hdir
    · rw [hdir] at hnone
      cases hnone
  · rcases a place with h | ⟨c, -, -, h⟩ | ⟨-, -, h⟩
    · exact .inr (.inr ⟨hd', h ▸ hnone', h'⟩)
    · rw [h] at hnone'
      cases hnone'
    · rw [h] at hnone'
      cases hnone'

theorem toExtends (a : Altered F D d d') : Extends (fun place => ∃ c, F place c) d d' := by
  refine ⟨@fun place n hn => ?_, @fun place c hnot hc => ?_⟩
  · have hview : d.view place = DiskNode.view (some n) := by rw [view, hn]
    cases n with
    | dir es =>
        have hdir : d'.view place = .directory := by
          rcases a place with h | ⟨c, -, hno, -⟩ | ⟨-, -, h⟩
          · exact h.trans hview
          · exact absurd hview hno
          · exact h
        obtain ⟨fs, hfs⟩ := DiskNode.view_eq_directory_iff.mp hdir
        exact ⟨_, hfs, rfl⟩
    | file c =>
        have hfile : ∃ c', d'.view place = .file c' := by
          rcases a place with h | ⟨c', -, -, h⟩ | ⟨-, hnone, -⟩
          · exact ⟨c, h.trans hview⟩
          · exact ⟨c', h⟩
          · rw [hview] at hnone
            cases hnone
        obtain ⟨c', hc'⟩ := hfile
        exact ⟨_, DiskNode.view_eq_file_iff.mp hc', rfl⟩
  · have hview : d.view place = .file c := DiskNode.view_eq_file_iff.mpr hc
    rcases a place with h | ⟨c', hf, -⟩ | ⟨-, hnone, -⟩
    · exact DiskNode.view_eq_file_iff.mp (h.trans hview)
    · exact absurd ⟨c', hf⟩ hnot
    · rw [hview] at hnone
      cases hnone

end Altered

theorem Extends.isDir {P : List Bytes → Prop} (e : Extends P d d') (h : d.isDir p = true) :
    d'.isDir p = true := by
  obtain ⟨place, es, hplace, hes⟩ := isDir_iff.mp h
  obtain ⟨n, hn, hkind⟩ := e.stays hes
  cases n with
  | file c => cases hkind
  | dir fs => exact isDir_iff.mpr ⟨place, fs, e.resolve hplace, hn⟩

theorem contentsAt_iff_of_view (h : ∀ place, d'.view place = d.view place) (p : Path) (c : Bytes) :
    d'.contentsAt p = .ok c ↔ d.contentsAt p = .ok c := by
  have one : ∀ {d d' : Disk}, (∀ place, d'.view place = d.view place) →
      d.contentsAt p = .ok c → d'.contentsAt p = .ok c := by
    intro d d' h hc
    have a : Altered (fun _ _ => False) (fun _ => False) d d' := fun place => .inl (h place)
    obtain ⟨_, hr, -⟩ := contentsAt_eq_ok.mp hc
    exact a.toExtends.contentsAt hr (fun ⟨_, hno⟩ => hno) hc
  exact ⟨one fun place => (h place).symm, one h⟩

/-- What is seen when something is put where no directory was. -/
theorem view_put {parent : List Bytes} {name : Bytes} {new : DiskNode} {es : List (Bytes × DiskNode)}
    (hdir : d.top.find? parent = some (.dir es)) (hold : d.view (parent ++ [name]) ≠ .directory)
    (hnew : new = .dir [] ∨ new.isDir = false) (place : List Bytes) :
    (d.put parent name new).view place =
      if place = parent ++ [name] then DiskNode.view (some new) else d.view place := by
  have hself : (d.put parent name new).top.find? (parent ++ [name]) = some new :=
    find?_put_self hdir
  split
  · rename_i hplace
    rw [hplace, view, hself]
  · rename_i hplace
    by_cases hpre : parent ++ [name] <+: place
    · obtain ⟨rest, rfl⟩ := hpre
      obtain ⟨b, rest, rfl⟩ : ∃ b rest', rest = b :: rest' := by
        refine List.exists_cons_of_ne_nil fun h => hplace ?_
        rw [h, List.append_nil]
      have hbelow : (d.put parent name new).top.find? (parent ++ [name] ++ b :: rest) = none := by
        rw [DiskNode.find?_append, hself]
        rcases hnew with rfl | hfile
        · rfl
        · cases new with
          | file c => rfl
          | dir es => cases hfile
      rw [view, hbelow, view, DiskNode.find?_append_of_not_dir (List.cons_ne_nil b rest) hold]
    · exact DiskNode.view_replace hdir hpre

/-- Writing a file alters its place only. -/
theorem altered_setFile (p : Path) (c : Bytes) :
    Always (Altered (fun place c' => place = p.place ∧ c' = c) fun _ => False) (setFile p c) := by
  intro d r d' hx
  rcases exec_change hx with ⟨-, htop⟩ | ⟨-, d₀, htop, hf⟩
  · exact .of_top htop
  · refine (Altered.of_top htop).trans ?_
    obtain ⟨t, ht, hf⟩ := bind_eq_ok.mp hf
    split at hf
    · cases hf
    · rename_i name hname
      by_cases hslash : t.slash = true
      · rw [if_pos hslash] at hf
        cases hf
      · rw [if_neg hslash] at hf
        obtain ⟨-, ⟨es, hes⟩, -⟩ := target_eq_ok ht hname
        split at hf
        · cases hf
        · rename_i hnodir
          obtain rfl := Except.ok.inj hf
          have hold : d₀.view (t.parent ++ [name]) ≠ .directory := by
            intro h
            obtain ⟨fs, hfs⟩ := DiskNode.view_eq_directory_iff.mp h
            exact hnodir fs hfs
          intro place
          rw [view_put hes hold (.inr rfl)]
          split
          · rename_i hplace
            subst hplace
            exact .inr (.inl ⟨c, ⟨target_place ht hname, rfl⟩, hold, rfl⟩)
          · exact .inl rfl

/-! ### Making directories -/

theorem exec_makeDir {r : Except IoError Unit} (hx : exec (makeDir p) d = (r, d')) :
    Altered (fun _ _ => False) (· = p.place) d d' ∧ (r = .ok () → d'.isDir p = true) := by
  rcases exec_change hx with ⟨⟨e, rfl⟩, htop⟩ | ⟨-, d₀, htop, hf⟩
  · exact ⟨.of_top htop, fun h => by cases h⟩
  · obtain ⟨t, ht, hf⟩ := bind_eq_ok.mp hf
    split at hf
    · cases hf
    · rename_i name hname
      split at hf
      · cases hf
      · rename_i hnone
        obtain rfl := Except.ok.inj hf
        obtain ⟨-, ⟨es, hes⟩, -⟩ := target_eq_ok ht hname
        have hfree : d₀.top.find? (t.parent ++ [name]) = none := by simpa using hnone
        have hview : d₀.view (t.parent ++ [name]) = .nothing :=
          DiskNode.view_eq_nothing_iff.mpr hfree
        refine ⟨(Altered.of_top htop).trans fun place => ?_, fun _ => isDir_put ht hname hfree⟩
        rw [view_put hes (by rw [hview]; simp) (.inl rfl)]
        split
        · rename_i hplace
          subst hplace
          exact .inr (.inr ⟨target_place ht hname, hview, rfl⟩)
        · exact .inl rfl

theorem exec_unlessDir {e : IoError} {r : Except IoError Unit}
    (hx : exec (do unless (← get).isDir p do throw e : Change Unit) d = (r, d')) :
    d' = d ∧ (r = .ok () → d'.isDir p = true) := by
  rw [exec_bind_of_ok (exec_get d)] at hx
  split at hx
  · rename_i hdir
    obtain ⟨-, rfl⟩ := Prod.mk.inj hx
    exact ⟨rfl, fun _ => hdir⟩
  · obtain ⟨rfl, rfl⟩ := Prod.mk.inj hx
    exact ⟨rfl, fun h => by cases h⟩

theorem exec_ensureDir {r : Except IoError Unit} (hx : exec (ensureDir p) d = (r, d')) :
    Altered (fun _ _ => False) (· = p.place) d d' ∧ (r = .ok () → d'.isDir p = true) := by
  unfold ensureDir at hx
  rw [exec_tryCatch] at hx
  rcases hmake : exec (makeDir p) d with ⟨e | u, d₁⟩
  · rw [hmake] at hx
    obtain ⟨rfl, hok⟩ := exec_unlessDir hx
    exact ⟨(exec_makeDir hmake).1, hok⟩
  · rw [hmake] at hx
    obtain ⟨rfl, rfl⟩ := Prod.mk.inj hx
    exact exec_makeDir hmake

/-- Making directories adds them on the way, where nothing was; if it ends well, they are there. -/
theorem exec_makeDirsWith (fuel : Nat) {p : Path} {d d' : Disk} {r : Except IoError Unit}
    (hx : exec (makeDirsWith fuel p) d = (r, d')) :
    Altered (fun _ _ => False) p.OnWay d d' ∧
      (r = .ok () → p.bytes = [] ∨ d'.isDir p = true) := by
  induction fuel generalizing p d d' r with
  | zero =>
      obtain ⟨rfl, rfl⟩ := Prod.mk.inj hx
      exact ⟨.refl _ _ _, fun h => by cases h⟩
  | succ fuel ih =>
      unfold makeDirsWith at hx
      split at hx
      · rename_i hempty
        obtain ⟨-, rfl⟩ := Prod.mk.inj hx
        exact ⟨.refl _ _ _, fun _ => .inl (List.isEmpty_iff.mp hempty)⟩
      · have here : ∀ {d d' : Disk}, Altered (fun _ _ => False) (· = p.place) d d' →
            Altered (fun _ _ => False) p.OnWay d d' :=
          fun a => a.mono id fun h => h ▸ p.onWay_place
        rw [exec_tryCatch] at hx
        rcases hmake : exec (makeDir p) d with ⟨e | u, d₁⟩
        · obtain ⟨a, -⟩ := exec_makeDir hmake
          rw [hmake] at hx
          simp only at hx
          split at hx
          · split at hx
            · obtain ⟨rfl, rfl⟩ := Prod.mk.inj hx
              exact ⟨here a, fun h => by cases h⟩
            · rename_i above habove
              rcases exec_bind_cases hx with ⟨e', hup, rfl⟩ | ⟨_, d₂, hup, hensure⟩
              · have up := (ih hup).1.mono id (Path.onWay_parent habove)
                exact ⟨(here a).trans up, fun h => by cases h⟩
              · have up := (ih hup).1.mono id (Path.onWay_parent habove)
                obtain ⟨a', hok⟩ := exec_ensureDir hensure
                exact ⟨((here a).trans up).trans (here a'), fun h => .inr (hok h)⟩
          · obtain ⟨rfl, hok⟩ := exec_unlessDir hx
            exact ⟨here a, fun h => .inr (hok h)⟩
        · obtain ⟨a, hok⟩ := exec_makeDir hmake
          rw [hmake] at hx
          obtain ⟨rfl, rfl⟩ := Prod.mk.inj hx
          exact ⟨here a, fun h => .inr (hok h)⟩

/-- Making directories alters places on the way only. -/
theorem altered_makeDirs (p : Path) : Always (Altered (fun _ _ => False) p.OnWay) (makeDirs p) :=
  fun _ _ _ hx => (exec_makeDirsWith _ hx).1

/-- Directories that were made are there; the empty path stands for the top. -/
theorem exec_makeDirs_ok (hx : exec (makeDirs p) d = (.ok (), d')) :
    p.bytes = [] ∨ d'.isDir p = true := (exec_makeDirsWith _ hx).2 rfl

end Disk

end PackageOutline
