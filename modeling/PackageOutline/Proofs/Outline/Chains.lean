import PackageOutline.Proofs.Outline.Handles
import PackageOutline.Proofs.Outline.Refused
import PackageOutline.Proofs.Outline.Releasing

/-! # Chains of parents

An item that was made and not attached may outlive the items above it, so following parents need not
arrive at the root.  It ends nevertheless, and when it does not end at the root, then at an item that
was removed.

* `HandleRun.past_iff`: the handles that are of the past are those that were removed.  A slot goes on to
  another generation with the release of its item only.
* `WellFormed.line_of_ascent`, `Ascent.top_missing`: how an ascent can end.
* `Ascent.lineage_eq_error`: whoever asks for the way to an item whose ascent ends at a removed one is
  told so.
* `WellFormed.ascent_length_le`: an ascent passes fewer items than there are, or arrives at the root. -/

namespace PackageOutline

namespace Outline

variable {β : Type} {o o' : Outline} {h p x : Handle} {i : Item} {l gone : List Handle} {m : Moment}
  {top : Option Handle}

/-! ### The past of slots -/

theorem Alike.past_iff {f : Item → β} (a : Alike f o o') : o'.Past h ↔ o.Past h := by
  unfold Past
  rw [a.generations]

theorem FreeExact.past_of_allocate (e : o.FreeExact) (ha : o.allocate i = .ok (h, o'))
    (hx : o'.Past x) : o.Past x := by
  obtain ⟨g, hg, hlt⟩ := hx
  rw [generation?_allocate e ha] at hg
  split at hg
  · rename_i hindex
    obtain rfl := Option.some.inj hg
    rcases e.generation_of_allocate ha with hsame | ⟨-, hzero⟩
    · exact ⟨h.generation, by rw [hindex, hsame], hlt⟩
    · rw [hzero] at hlt
      exact absurd hlt UInt32.not_lt_zero
  · exact ⟨g, hg, hlt⟩

theorem lt_or_eq_of_lt_succ {g g' : UInt32} (hlt : g < g' + 1) : g < g' ∨ g = g' := by
  rw [UInt32.lt_iff_toNat_lt, UInt32.toNat_add] at hlt
  rw [UInt32.lt_iff_toNat_lt, ← UInt32.toNat_inj]
  have hone : (1 : UInt32).toNat = 1 := rfl
  have := Nat.mod_le (g'.toNat + (1 : UInt32).toNat) (2 ^ 32)
  omega

/-- Of a slot that goes on by one generation only the handle released becomes past. -/
theorem Vacated.past (v : Vacated gone o o') (hx : o'.Past x) : x ∈ gone ∨ o.Past x := by
  obtain ⟨g, hg, hlt⟩ := hx
  rw [v.generations] at hg
  split at hg
  · rename_i hindex
    obtain ⟨y, hy, hyx⟩ := List.mem_map.mp hindex
    obtain ⟨k, hk⟩ := Option.isSome_iff_exists.mp (v.live y hy)
    have hself := generation?_of_get? hk
    rw [hyx] at hself
    rw [hself, Option.map_some] at hg
    obtain rfl := Option.some.inj hg
    rcases lt_or_eq_of_lt_succ hlt with hlt | heq
    · exact Or.inr ⟨_, hself, hlt⟩
    · refine Or.inl ?_
      have hxy : x = y := by
        obtain ⟨n, g⟩ := x
        obtain ⟨n', g'⟩ := y
        simp_all
      exact hxy ▸ hy
  · exact Or.inr ⟨g, hg, hlt⟩

theorem WellFormed.past_of_allocates {e : Edit Handle} {kind : Kind} {name : String}
    (w : o.WellFormed) (he : e.Allocates p kind name) (hx : (exec e o).2.Past x) : o.Past x := by
  rcases hrun : exec e o with ⟨r, o'⟩
  rw [hrun] at hx
  rcases he hrun with ⟨rfl, -⟩ | ⟨h, o₁, hcreate, hrest, -⟩
  · exact hx
  · exact w.free.past_of_allocate (create_eq_ok hcreate).2 (hrest.past_iff.mp hx)

end Outline

theorem Call.past_of_after {c : Call} {W : Workspace} {x : Handle} (w : W.outline.WellFormed)
    (hc : ∀ h, c ≠ .remove h) (hx : (c.after W).outline.Past x) : W.outline.Past x := by
  have making : ∀ {e : Edit Handle} {p kind name}, e.Allocates p kind name →
      (exec e.work W).2.outline.Past x → W.outline.Past x := by
    intro e p kind name he hx
    have hwork : (exec e.work W).2.outline = (exec e W.outline).2 :=
      exec_bind_pure_snd e () W.outline
    exact w.past_of_allocates he (hwork ▸ hx)
  by_cases hcreate : ∃ p kind name, c = .create p kind name
  · obtain ⟨p, kind, name, rfl⟩ := hcreate
    exact making (Edit.allocates_create p kind name) hx
  by_cases hadd : ∃ p kind name, c = .add p kind name
  · obtain ⟨p, kind, name, rfl⟩ := hadd
    exact making (Edit.allocates_add p kind name) hx
  exact (Call.standing_after (fun p kind name he => hcreate ⟨p, kind, name, he⟩)
    (fun p kind name he => hadd ⟨p, kind, name, he⟩) hc).past_iff.mp hx

open Outline

/-- What is of the past was removed. -/
theorem HandleRun.past_iff {m : Moment} (run : HandleRun m) (hn : m.released < 2 ^ 32)
    {x : Handle} : m.outline.Past x ↔ x ∈ m.gone := by
  refine ⟨fun hx => ?_, (run.accounts hn).past x⟩
  induction run with
  | start package document next notices =>
      obtain ⟨g, hg, hlt⟩ := hx
      have hzero := (tended_new package document).bounded hg
      rw [UInt32.lt_iff_toNat_lt] at hlt
      omega
  | @call m c run ih =>
      have hless : m.released < 2 ^ 32 := Nat.lt_of_le_of_lt (Nat.le_add_right _ _) hn
      have w := (run.tended hless).tree
      by_cases hc : ∃ h, c = .remove h
      · obtain ⟨h, rfl⟩ := hc
        cases hd : m.outline.detach h with
        | error v =>
            obtain ⟨hafter, hgone⟩ := m.next_remove (exec_remove_of_error hd)
            rw [hafter] at hx
            rw [hgone]
            exact List.mem_append_right _ (ih hless hx)
        | ok a =>
            obtain ⟨order, o₂, o', -, -, hrun, u⟩ := w.uprooted_of_detach hd
            obtain ⟨hafter, hgone⟩ := m.next_remove hrun
            rw [hafter] at hx
            rw [hgone]
            exact List.mem_append.mpr ((u.vacated.past hx).imp_right (ih hless))
      · have hc : ∀ h, c ≠ .remove h := fun h he => hc ⟨h, he⟩
        rw [m.gone_next hc]
        exact ih hless (Call.past_of_after w hc hx)

/-- A parent is live or was removed. -/
theorem HandleRun.parent_known {m : Moment} (run : HandleRun m) (hn : m.released < 2 ^ 32)
    {x p : Handle} {i : Item} (hi : m.outline.get? x = some i) (hp : i.parent = some p) :
    (∃ j, m.outline.get? p = some j) ∨ p ∈ m.gone :=
  ((run.tended hn).known hi hp).imp_right (run.past_iff hn).mp

/-! ### How ascents end -/

namespace Outline

variable {o : Outline} {h p : Handle} {l : List Handle} {top : Option Handle}

/-- An ascent that ends at an item without a parent has arrived at the root. -/
theorem WellFormed.line_of_ascent (w : o.WellFormed) (a : o.Ascent h l none) : o.Line h l := by
  generalize ht : (none : Option Handle) = top at a
  induction a with
  | root hi hp =>
      obtain rfl := w.orphan hi hp
      exact .root hi hp
  | lost _ _ _ => cases ht
  | step hi hp _ ih => exact .step hi hp (ih ht)

theorem Line.getLast?_eq (hl : o.Line h l) : l.getLast? = some Outline.root := by
  induction hl with
  | root _ _ => rfl
  | step _ _ _ ih => rw [List.getLast?_cons, ih, Option.getD_some]

/-- An ascent that does not arrive ends at the parent of an item on it, which is not there. -/
theorem Ascent.top_missing (a : o.Ascent h l (some p)) :
    o.get? p = none ∧ ∃ x i, o.get? x = some i ∧ i.parent = some p := by
  generalize ht : some p = top at a
  induction a with
  | root _ _ => cases ht
  | lost hi hp hnone =>
      obtain rfl := Option.some.inj ht
      exact ⟨hnone, _, _, hi, hp⟩
  | step _ _ _ ih => exact ih ht

theorem Ascent.root_not_mem (w : o.WellFormed) (a : o.Ascent h l (some p)) : Outline.root ∉ l := by
  have hne : ∀ {h i q}, o.get? h = some i → i.parent = some q → Outline.root ≠ h := by
    rintro h i q hi hq rfl
    obtain ⟨r, hr, -, hnone⟩ := w.root
    rw [hi] at hr
    rw [Option.some.inj hr, hnone] at hq
    cases hq
  generalize ht : some p = top at a
  induction a with
  | root _ _ => cases ht
  | lost hi hp _ => exact fun hmem => hne hi hp (List.mem_singleton.mp hmem)
  | step hi hp _ ih =>
      intro hmem
      rcases List.mem_cons.mp hmem with hroot | hmem
      · exact hne hi hp hroot
      · exact ih ht hmem

/-- An ascent follows no more parents than there are items: if it does not arrive at the root, then the
root is one that it does not pass. -/
theorem WellFormed.ascent_length_le (w : o.WellFormed) (a : o.Ascent h l top) :
    l.length + top.toList.length ≤ o.itemCount := by
  cases top with
  | none => exact w.line_length_le (w.line_of_ascent a)
  | some p =>
      obtain ⟨r, hr, -⟩ := w.root
      have hnd : (Outline.root :: l).Nodup :=
        List.nodup_cons.mpr ⟨a.root_not_mem w, w.ascent_nodup a⟩
      refine w.free.length_le_itemCount hnd fun x hx => ?_
      rcases List.mem_cons.mp hx with rfl | hx
      · exact ⟨r, hr⟩
      · exact a.live x hx

theorem Ascent.climb_eq_error (a : o.Ascent h l (some p)) (origin : Handle) {steps : Nat}
    (hs : l.length ≤ steps) (below : List Handle) :
    o.climb origin steps below h = .error (.missing p) := by
  generalize ht : some p = top at a
  induction a generalizing steps below with
  | root _ _ => cases ht
  | @lost h q i hi hq hnone =>
      obtain rfl := Option.some.inj ht
      obtain ⟨steps, rfl⟩ : ∃ n, steps = n + 1 := ⟨steps - 1, by simp at hs; omega⟩
      unfold climb
      simp only [item_of_get? hi, bind, Except.bind, hq]
      cases steps <;> · unfold climb; rw [item_of_stale hnone]; rfl
  | step hi hq _ ih =>
      rw [List.length_cons] at hs
      obtain ⟨steps, rfl⟩ : ∃ n, steps = n + 1 := ⟨steps - 1, by omega⟩
      unfold climb
      simp only [item_of_get? hi, bind, Except.bind, hq]
      exact ih (by omega) _ ht

/-- The way to an item whose ascent ends at a parent that is not there is not to be had. -/
theorem Ascent.lineage_eq_error (w : o.WellFormed) (a : o.Ascent h l (some p)) :
    o.lineage h = .error (.missing p) := by
  have := w.ascent_length_le a
  rw [Option.toList_some, List.length_singleton] at this
  exact a.climb_eq_error h (by omega) []

end Outline

/-- Whatever was called before, with calls refused halfway: following parents from a live item passes
different live items, and after no more parents than there are items it arrives at the root or at the
handle of an item that was removed.  Marking the item marks those items and ends there.  In the first
case the way to the item and its addresses are given; in the second, which is not that of an item that
the root leads to, they are refused because that parent is not there, and for no other reason. -/
theorem HandleRun.parent_chains_end {m : Moment} (run : HandleRun m) (hn : m.released < 2 ^ 32) :
    ∀ x, m.outline.contains x = true → ∃ l top, m.outline.Ascent x l top ∧ l.Nodup ∧
      (∀ y ∈ l, m.outline.contains y = true) ∧
      l.length + top.toList.length ≤ m.outline.itemCount ∧
      (∃ o', Marked l m.outline o' ∧
        exec (Edit.markDirty x) m.outline = (arrival top, o') ∧
        ∀ steps, m.outline.itemCount ≤ steps →
          exec (Edit.markUp steps x) m.outline = (arrival top, o')) ∧
      (top = none ∧ l.getLast? = some Outline.root ∧ m.outline.lineage x = .ok l.reverse ∧
          (∃ path, m.outline.relativePath x = .ok path) ∧
          (∃ names, m.outline.diskNames x = .ok names) ∨
        ∃ p ∈ m.gone, top = some p ∧ m.outline.get? p = none ∧ ¬ m.outline.Reachable x ∧
          m.outline.lineage x = .error (.missing p) ∧
          m.outline.relativePath x = .error (.missing p) ∧
          m.outline.diskNames x = .error (.missing p)) := by
  intro x hx
  have w := (run.tended hn).tree
  obtain ⟨i, hi⟩ := Option.isSome_iff_exists.mp hx
  obtain ⟨l, top, a⟩ := w.exists_ascent hi
  have hlength := w.ascent_length_le a
  have hsize := itemCount_le_size m.outline
  obtain ⟨o', marked, hmark⟩ := a.exec_markUp
  refine ⟨l, top, a, w.ascent_nodup a, fun y hy => Option.isSome_iff_exists.mpr (a.live y hy), hlength,
    ⟨o', marked, hmark _ (by omega), fun steps hs => hmark steps (by omega)⟩, ?_⟩
  cases top with
  | none =>
      have hl := w.line_of_ascent a
      exact Or.inl ⟨rfl, hl.getLast?_eq, w.lineage_eq hl, w.relativePath_isOk hl, _, w.diskNames_eq hl⟩
  | some p =>
      obtain ⟨hnone, y, k, hk, hp⟩ := a.top_missing
      have hgone : p ∈ m.gone := (run.parent_known hn hk hp).resolve_left fun ⟨j, hj⟩ => by
        rw [hnone] at hj
        cases hj
      have hlineage := a.lineage_eq_error w
      refine Or.inr ⟨p, hgone, rfl, hnone, fun hr => ?_, hlineage, ?_, ?_⟩
      · obtain ⟨l', hl'⟩ := w.line_of_reachable hr
        cases hlineage.symm.trans (w.lineage_eq hl')
      · rw [relativePath, hlineage]
        rfl
      · rw [diskNames, hlineage]
        rfl

/-- A file is made for a folder that is made for another folder, and only the last is attached; it is
removed and its slot is used again.  Marking the file is refused after the other two are marked. -/
theorem HandleRun.parent_chains_end_of_detached_file : ∃ (m : Moment) (l : List Handle)
    (o' : Outline), HandleRun m ∧ m.released < 2 ^ 32 ∧ m.outline.contains ⟨4, 0⟩ = true ∧
    m.outline.contains ⟨2, 1⟩ = true ∧ m.outline.Ascent ⟨4, 0⟩ l (some ⟨2, 0⟩) ∧ l.Nodup ∧
    l.length + 1 ≤ m.outline.itemCount ∧ Marked l m.outline o' ∧
    exec (Edit.markDirty ⟨4, 0⟩) m.outline = (.error (.missing ⟨2, 0⟩), o') ∧
    ⟨2, 0⟩ ∈ m.gone ∧ ¬ m.outline.Reachable ⟨4, 0⟩ ∧
    m.outline.lineage ⟨4, 0⟩ = .error (.missing ⟨2, 0⟩) := by
  obtain ⟨m, run, hreleased, hlive, hagain, hlineage⟩ : ∃ m : Moment, HandleRun m ∧
      m.released = 1 ∧ m.outline.contains ⟨4, 0⟩ = true ∧ m.outline.contains ⟨2, 1⟩ = true ∧
      m.outline.lineage ⟨4, 0⟩ = .error (.missing ⟨2, 0⟩) :=
    ⟨_, (HandleRun.start "P" none 0 []).after [.add Outline.root .group "Package",
      .add ⟨1, 0⟩ .folder "d", .create ⟨2, 0⟩ .folder "e", .create ⟨3, 0⟩ .file "x",
      .remove ⟨2, 0⟩, .add ⟨1, 0⟩ .folder "f", .markDirty ⟨4, 0⟩], by decide +kernel⟩
  have hn : m.released < 2 ^ 32 := by rw [hreleased]; decide
  obtain ⟨l, top, a, hnodup, -, hlength, ⟨o', marked, hmark, -⟩, hend⟩ :=
    run.parent_chains_end hn ⟨4, 0⟩ hlive
  rcases hend with ⟨-, -, hok, -⟩ | ⟨p, hgone, rfl, -, hreach, herror, -⟩
  · cases hlineage.symm.trans hok
  · obtain rfl := Violation.missing.inj (Except.error.inj (hlineage.symm.trans herror))
    exact ⟨m, l, o', run, hn, hlive, hagain, a, hnodup, hlength, marked, hmark, hgone, hreach, herror⟩

end PackageOutline
