import PackageOutline.Disk.Change
import PackageOutline.Proofs.Disk.Places

/-! # Changes of disks

What one change does to a disk, when it ends well and when it fails.  Writing a file changes the
contents at one place (`exec_setFile`); making directories changes no contents at all
(`exec_makeDirs`). -/

namespace PackageOutline

namespace Disk

variable {d d' : Disk} {p : Path} {c : Bytes}

theorem extends_put {parent : List Bytes} {name : Bytes} {new : DiskNode}
    {es : List (Bytes × DiskNode)} (hdir : d.top.find? parent = some (.dir es))
    (hold : ∀ m, d.top.find? (parent ++ [name]) = some m → m.isDir = false ∧ new.isDir = false) :
    Extends (· = parent ++ [name]) d (d.put parent name new) := by
  refine ⟨fun hn => ?_, fun hne hc => ?_⟩
  · obtain ⟨m', hm', hkind, -⟩ := DiskNode.find?_replace hdir hold hn
    exact ⟨m', hm', hkind⟩
  · obtain ⟨m', hm', -, hsame⟩ := DiskNode.find?_replace hdir hold hc
    rw [← hsame hne rfl]
    exact hm'

theorem find?_put_self {parent : List Bytes} {name : Bytes} {new : DiskNode}
    {es : List (Bytes × DiskNode)} (hdir : d.top.find? parent = some (.dir es)) :
    (d.put parent name new).top.find? (parent ++ [name]) = some new := by
  refine DiskNode.find?_replace_self new d.top fun i hi => ?_
  rw [List.length_append, List.length_singleton] at hi
  rw [List.take_append_of_le_length (by omega)]
  rw [← List.take_append_drop i parent, DiskNode.find?_append] at hdir
  obtain ⟨m, hm, hrest⟩ := Option.bind_eq_some_iff.mp hdir
  rw [hm, Option.map_some, DiskNode.isDir_of_find? hrest]

/-! ### Targets -/

theorem eq_append_of_dropWhile {q : Bytes → Bool} {ps above : List Bytes} {last : Bytes}
    (h : ps.reverse.dropWhile q = last :: above) :
    ps = above.reverse ++ last :: (ps.reverse.takeWhile q).reverse := by
  have hsplit := congrArg List.reverse (List.takeWhile_append_dropWhile (p := q) (l := ps.reverse))
  rw [List.reverse_reverse, h] at hsplit
  refine hsplit.symm.trans ?_
  simp

/-- The target of a path with a name is the place of that name in a directory; on the path it is
followed by empty pieces at most. -/
theorem target_eq_ok {t : Target} {name : Bytes} (ht : d.target p = .ok t)
    (hname : t.name = some name) :
    checkPath p = .ok () ∧ (∃ es, d.top.find? t.parent = some (.dir es)) ∧
      name.length ≤ maxName ∧ Path.isName name = true ∧
        ∃ above empties, p.pieces = above ++ name :: empties ∧ (∀ piece ∈ empties, piece = []) ∧
          (t.slash = false → empties = []) ∧ d.walk [] above = .ok t.parent := by
  unfold target at ht
  obtain ⟨_, hcheck, ht⟩ := bind_eq_ok.mp ht
  refine ⟨hcheck, ?_⟩
  simp only at ht
  split at ht
  · obtain rfl := Except.ok.inj ht
    cases hname
  · rename_i last above hpieces
    obtain ⟨parent, hparent, ht⟩ := bind_eq_ok.mp ht
    split at ht
    · rename_i es hes
      split at ht
      · obtain rfl := Except.ok.inj ht
        cases hname
      · rename_i hlast
        split at ht
        · cases ht
        · rename_i hlen
          obtain rfl := Except.ok.inj ht
          obtain rfl := Option.some.inj hname
          refine ⟨⟨es, hes⟩, by omega, by simpa using hlast, above.reverse, _,
            eq_append_of_dropWhile hpieces, fun piece hmem => ?_, fun hslash => ?_, hparent⟩
          · simpa using List.all_eq_true.mp List.all_takeWhile piece (List.mem_reverse.mp hmem)
          · have hhead : p.pieces.reverse.head? ≠ some [] := by simpa using hslash
            cases hrev : p.pieces.reverse with
            | nil => rfl
            | cons piece pieces =>
                have hne : piece ≠ [] := by simpa [hrev] using hhead
                rw [List.takeWhile_cons_of_neg (by simpa using hne)]
                rfl
    · cases ht

theorem step_put {parent : List Bytes} {name : Bytes} {new : DiskNode} {es : List (Bytes × DiskNode)}
    (hes : d.top.find? parent = some (.dir es)) (hlen : name.length ≤ maxName)
    (hpiece : Path.isName name = true)
    (hold : ∀ m, d.top.find? (parent ++ [name]) = some m → m.isDir = false ∧ new.isDir = false) :
    (d.put parent name new).step parent name = .ok (parent ++ [name]) := by
  obtain ⟨n', hn', hkind⟩ := (extends_put hes hold).stays hes
  have hself : (d.put parent name new).top.find? (parent ++ [name]) = some new := find?_put_self hes
  cases n' with
  | file c => cases hkind
  | dir fs =>
      rw [DiskNode.find?_concat hn'] at hself
      exact (step_name hpiece).mpr ⟨fs, hn', hlen, Option.isSome_iff_exists.mpr ⟨_, hself⟩, rfl⟩

theorem resolve_put {t : Target} {name : Bytes} (ht : d.target p = .ok t)
    (hname : t.name = some name) (hslash : t.slash = false) {new : DiskNode}
    (hold : ∀ m, d.top.find? (t.parent ++ [name]) = some m → m.isDir = false ∧ new.isDir = false) :
    (d.put t.parent name new).resolve p = .ok (t.parent ++ [name]) := by
  obtain ⟨hcheck, ⟨es, hes⟩, hlen, hpiece, above, empties, hpieces, -, hline, hw⟩ :=
    target_eq_ok ht hname
  obtain rfl := hline hslash
  have e := extends_put hes hold
  unfold resolve
  refine bind_eq_ok.mpr ⟨(), hcheck, ?_⟩
  rw [hpieces, walk_append, e.walk hw]
  show (d.put t.parent name new).walk t.parent [name] = _
  rw [walk]
  exact bind_eq_ok.mpr ⟨_, step_put hes hlen hpiece hold, rfl⟩

/-! ### Writing files -/

/-- A change is done to a disk with the same contents, or it is refused and nothing happens. -/
theorem exec_change {f : Disk → Except IoError Disk} {r : Except IoError Unit}
    (hx : exec (change f) d = (r, d')) :
    ((∃ e, r = .error e) ∧ d'.top = d.top) ∨
      r = .ok () ∧ ∃ d₀, d₀.top = d.top ∧ f d₀ = .ok d' := by
  unfold change at hx
  rw [exec_mk] at hx
  simp only at hx
  split at hx
  · obtain ⟨rfl, rfl⟩ := Prod.mk.inj hx
    exact Or.inl ⟨⟨_, rfl⟩, rfl⟩
  · split at hx
    · rename_i hf
      obtain ⟨rfl, rfl⟩ := Prod.mk.inj hx
      exact Or.inr ⟨rfl, { d with faults := d.faults.tail }, rfl, hf⟩
    · obtain ⟨rfl, rfl⟩ := Prod.mk.inj hx
      exact Or.inl ⟨⟨_, rfl⟩, rfl⟩

/-- Writing a file puts its contents at the place of its path, or leaves everything as it is. -/
theorem exec_setFile {r : Except IoError Unit} (hx : exec (setFile p c) d = (r, d')) :
    ((∃ e, r = .error e) ∧ d'.top = d.top) ∨ r = .ok () ∧ d'.contentsAt p = .ok c ∧
      Extends (fun place => d'.resolve p = .ok place) d d' := by
  rcases exec_change hx with ⟨he, htop⟩ | ⟨rfl, d₀, htop, hf⟩
  · exact Or.inl ⟨he, htop⟩
  · refine Or.inr ⟨rfl, ?_⟩
    obtain ⟨t, ht, hf⟩ := bind_eq_ok.mp hf
    split at hf
    · cases hf
    · rename_i name hname
      by_cases hslash : t.slash = true
      · rw [if_pos hslash] at hf
        cases hf
      · rw [if_neg hslash] at hf
        have hslash : t.slash = false := by simpa using hslash
        obtain ⟨-, ⟨es, hes⟩, -⟩ := target_eq_ok ht hname
        split at hf
        · cases hf
        · rename_i hnodir
          obtain rfl := Except.ok.inj hf
          have hold : ∀ m, d₀.top.find? (t.parent ++ [name]) = some m →
              m.isDir = false ∧ (DiskNode.file c).isDir = false := by
            intro m hm
            cases m with
            | file b => exact ⟨rfl, rfl⟩
            | dir fs => exact absurd hm (hnodir fs)
          have hr := resolve_put ht hname hslash hold
          refine ⟨contentsAt_eq_ok.mpr ⟨_, hr, find?_put_self hes⟩, ?_⟩
          refine (Extends.of_top htop).trans ((extends_put hes hold).mono ?_)
          rintro place rfl
          exact hr

/-! ### Making directories -/

instance : IsPreorder Disk (Extends fun _ => False) where
  refl d := .refl _ d
  trans _ _ _ e e' := e.trans e'

/-- Whether a change of a disk leaves what is there as it is. -/
def Adds {α : Type} (x : Change α) : Prop := Always (Extends fun _ => False) x

theorem adds_makeDir (p : Path) : Adds (makeDir p) := by
  intro d r d' hx
  rcases exec_change hx with ⟨-, htop⟩ | ⟨-, d₀, htop, hf⟩
  · exact .of_top htop
  · obtain ⟨t, ht, hf⟩ := bind_eq_ok.mp hf
    split at hf
    · cases hf
    · rename_i name hname
      split at hf
      · cases hf
      · rename_i hnone
        obtain rfl := Except.ok.inj hf
        obtain ⟨-, ⟨es, hes⟩, -⟩ := target_eq_ok ht hname
        have hfree : d₀.top.find? (t.parent ++ [name]) = none := by simpa using hnone
        have hput : Extends (· = t.parent ++ [name]) d₀ (d₀.put t.parent name (.dir [])) := by
          refine extends_put hes fun m hm => ?_
          rw [hfree] at hm
          cases hm
        refine (Extends.of_top htop).trans ⟨hput.stays, fun _ hc => hput.files ?_ hc⟩
        rintro rfl
        rw [hfree] at hc
        cases hc

section

variable {R : Disk → Disk → Prop} [IsPreorder Disk R]

theorem always_unlessDir (p : Path) (e : IoError) :
    Always R (do unless (← get).isDir p do throw e : Change Unit) := by
  refine Always.get.bind fun d => ?_
  split
  · exact Always.pure ()
  · exact Always.throw e

theorem always_makeDirs (hmake : ∀ p, Always R (makeDir p)) (p : Path) : Always R (makeDirs p) := by
  unfold makeDirs
  generalize p.bytes.length + 1 = fuel
  induction fuel generalizing p with
  | zero => exact Always.throw _
  | succ fuel ih =>
      unfold makeDirsWith
      split
      · exact Always.pure ()
      · refine Always.tryCatch (hmake p) fun e => ?_
        split
        · split
          · exact Always.throw e
          · refine Always.bind (ih _) fun _ => ?_
            exact Always.tryCatch (hmake p) fun e => always_unlessDir p e
        · exact always_unlessDir p e

end

/-- Making directories leaves what is there as it is. -/
theorem adds_makeDirs (p : Path) : Adds (makeDirs p) := always_makeDirs adds_makeDir p

end Disk

end PackageOutline
