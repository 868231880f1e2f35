import PackageOutline.Proofs.Exec
import PackageOutline.Proofs.Outline.Plain

/-! # Marks and memory

What the marks of items promise: the parent of a dirty item is dirty (`Outline.DirtyClosed`), and
what a clean item remembers is its image (`Outline.Coherent`).

`Ascent.exec_markUp`: marking an item marks its ascent and does nothing else; it is refused when the
ascent ends at a parent that is not there.  `exec_markDirty`: where there is a line, marking marks
it.  An edit marks the line of the item that it is about, so nothing outside of that line has to
change: `Marked.coherent` asks what is not on the line to keep all that its image is made of. -/

namespace PackageOutline

/-- An item with the mark of a change. -/
def Item.marked (i : Item) : Item := { i with dirty := true, cache := none }

namespace Outline

variable {o o₁ o' : Outline} {h x p : Handle} {i j : Item} {l : List Handle} {top : Option Handle}

/-- What clean items remember are their images. -/
def Coherent (o : Outline) : Prop :=
  ∀ ⦃h i t⦄, o.get? h = some i → i.dirty = false → i.cache = some t →
    o.plainImage h = .ok t.plain

/-- The parents of dirty items are dirty. -/
def DirtyClosed (o : Outline) : Prop :=
  ∀ ⦃h i p j⦄, o.get? h = some i → i.dirty = true → i.parent = some p → o.get? p = some j →
    j.dirty = true

/-- The items of a list are marked, and the others are as they were. -/
structure Marked (l : List Handle) (o o' : Outline) : Prop where
  tree : SameTree o o'
  on : ∀ {x i}, x ∈ l → o'.get? x = some i → i.dirty = true
  off : ∀ {x}, x ∉ l → o'.get? x = o.get? x

/-- What is put in place of an item that differs in memory and marks only leaves the tree. -/
theorem SameTree.set (hi : o.get? h = some i) (hj : j.bare = i.bare) : SameTree o (o.set h j) :=
  ⟨.set hi hj, rfl⟩

theorem Line.parent_mem (hl : o.Line h l) (hx : x ∈ l) (hi : o.get? x = some i)
    (hp : i.parent = some p) : p ∈ l :=
  hl.mem_iff.mpr ((Below.step hi hp .self).trans (hl.mem_iff.mp hx))

/-! ### Marking -/

/-- What going up to the end of an ascent comes to. -/
def arrival : (top : Option Handle) → Except Violation Unit
  | none => .ok ()
  | some p => .error (.missing p)

theorem Marked.nil (o : Outline) : Marked [] o o :=
  ⟨.refl o, fun hx => absurd hx List.not_mem_nil, fun _ => rfl⟩

theorem Marked.cons (hi : o.get? h = some i) (m : Marked l (o.set h i.marked) o') :
    Marked (h :: l) o o' := by
  have htree := SameTree.set (j := i.marked) hi rfl
  refine ⟨htree.trans m.tree, fun {x k} hx hk => ?_, fun {x} hx => ?_⟩
  · by_cases hmem : x ∈ l
    · exact m.on hmem hk
    · obtain rfl : x = h := (List.mem_cons.mp hx).resolve_right hmem
      rw [m.off hmem, get?_set_self hi] at hk
      exact Option.some.inj hk ▸ rfl
  · rw [List.mem_cons, not_or] at hx
    rw [m.off hx.2, get?_set_of_ne hi _ hx.1]

theorem exec_markUp_succ (hi : o.get? h = some i) (steps : Nat) :
    exec (Edit.markUp (steps + 1) h) o = match i.parent with
      | none => (.ok (), o.set h i.marked)
      | some p => exec (Edit.markUp steps p) (o.set h i.marked) := by
  have hmark : exec (Edit.change (·.update h Item.marked)) o = (.ok (), o.set h i.marked) :=
    Edit.exec_change_eq_ok.mpr (update_of_get? hi _)
  conv_lhs => unfold Edit.markUp
  rw [exec_bind_of_ok (Edit.exec_read_eq_ok.mpr ⟨item_of_get? hi, rfl⟩)]
  show exec (Edit.change (·.update h Item.marked) >>= fun _ => _) o = _
  rw [exec_bind_of_ok hmark]
  cases i.parent <;> rfl

/-- A step of marking: the item is not there, or it is the last one, or its parent is next. -/
theorem exec_markUp_cases {steps : Nat} {r : Except Violation Unit}
    (hx : exec (Edit.markUp (steps + 1) h) o = (r, o')) :
    (o.get? h = none ∧ r = .error (.missing h) ∧ o' = o) ∨
    (∃ i, o.get? h = some i ∧ i.parent = none ∧ r = .ok () ∧ o' = o.set h i.marked) ∨
    ∃ i p, o.get? h = some i ∧ i.parent = some p ∧
      exec (Edit.markUp steps p) (o.set h i.marked) = (r, o') := by
  cases hi : o.get? h with
  | none =>
      rcases Edit.exec_read_cases hx with ⟨v, hv, rfl, rfl⟩ | ⟨i, hitem, -⟩
      · rw [Outline.item, hi] at hv
        exact Or.inl ⟨rfl, congrArg _ (Except.error.inj hv).symm, rfl⟩
      · rw [Outline.item, hi] at hitem
        cases hitem
  | some i =>
      rw [exec_markUp_succ hi] at hx
      cases hp : i.parent with
      | none =>
          rw [hp] at hx
          obtain ⟨rfl, rfl⟩ := Prod.mk.inj hx
          exact Or.inr (Or.inl ⟨i, rfl, hp, rfl, rfl⟩)
      | some p =>
          rw [hp] at hx
          exact Or.inr (Or.inr ⟨i, p, rfl, hp, hx⟩)

/-- Marking goes up an ascent, marks the items on it, and ends where it ends, whatever number of steps
beyond that is allowed. -/
theorem Ascent.exec_markUp (a : o.Ascent h l top) :
    ∃ o', Marked l o o' ∧ ∀ steps, l.length + top.toList.length ≤ steps →
      exec (Edit.markUp steps h) o = (arrival top, o') := by
  induction l generalizing o h with
  | nil => cases a
  | cons y l ih =>
      cases a with
      | @root _ i hi hp =>
          refine ⟨_, .cons hi (.nil _), fun steps hs => ?_⟩
          obtain ⟨steps, rfl⟩ : ∃ n, steps = n + 1 := ⟨steps - 1, by simp at hs; omega⟩
          rw [exec_markUp_succ hi, hp]
          rfl
      | @lost _ p i hi hp hnone =>
          refine ⟨_, .cons hi (.nil _), fun steps hs => ?_⟩
          obtain ⟨steps, rfl⟩ : ∃ n, steps = n + 1 + 1 := ⟨steps - 2, by simp at hs; omega⟩
          have hgone : (o.set y i.marked).get? p = none := by
            rw [get?_set_of_ne hi, hnone]
            rintro rfl
            rw [hi] at hnone
            cases hnone
          have hread : exec (Edit.read (·.item p)) (o.set y i.marked) =
              (.error (.missing p), o.set y i.marked) := by
            rw [Edit.exec_read, Outline.item, hgone]
          rw [exec_markUp_succ hi, hp]
          exact exec_bind_of_error hread
      | @step _ p i _ _ hi hp a =>
          obtain ⟨o', m, hrun⟩ := ih (a.congr (.set (j := i.marked) hi rfl))
          refine ⟨o', .cons hi m, fun steps hs => ?_⟩
          rw [List.length_cons] at hs
          obtain ⟨steps, rfl⟩ : ∃ n, steps = n + 1 := ⟨steps - 1, by omega⟩
          rw [exec_markUp_succ hi, hp]
          exact hrun steps (by omega)

theorem exec_markUp {steps : Nat} (hl : o.Line h l) (hs : l.length ≤ steps) :
    ∃ o', exec (Edit.markUp steps h) o = (.ok (), o') ∧ Marked l o o' := by
  obtain ⟨o', m, hrun⟩ := hl.ascent.exec_markUp
  exact ⟨o', hrun steps hs, m⟩

/-- Marking an item marks the items on its line. -/
theorem WellFormed.exec_markDirty (w : o.WellFormed) (hl : o.Line h l) :
    ∃ o', exec (Edit.markDirty h) o = (.ok (), o') ∧ Marked l o o' := by
  have := w.line_length_le hl
  have := itemCount_le_size o
  exact exec_markUp hl (by omega)

theorem WellFormed.markDirty_eq_ok (w : o.WellFormed) (hl : o.Line h l)
    (hm : exec (Edit.markDirty h) o = (.ok (), o')) : Marked l o o' := by
  obtain ⟨o'', hrun, m⟩ := w.exec_markDirty hl
  rw [hm] at hrun
  obtain rfl := (Prod.mk.inj hrun).2
  exact m

/-! ### What marking keeps -/

theorem DirtyClosed.congr (ag : AgreeOn (fun i : Item => (i.parent, i.dirty)) o o')
    (d : o.DirtyClosed) : o'.DirtyClosed := by
  intro x k q m hk hdirty hq hm
  obtain ⟨k₀, hk₀, hkf⟩ := ag.symm.get?_eq_some hk
  obtain ⟨m₀, hm₀, hmf⟩ := ag.symm.get?_eq_some hm
  obtain ⟨hkp, hkd⟩ := Prod.mk.inj hkf
  obtain ⟨-, hmd⟩ := Prod.mk.inj hmf
  rw [← hmd]
  exact d hk₀ (hkd.trans hdirty) (hkp.trans hq) hm₀

theorem Marked.dirtyClosed (m : Marked l o o') (hl : o.Line h l) (d : o.DirtyClosed) :
    o'.DirtyClosed := by
  intro x i' p j' hi' hdirty hp hj'
  by_cases hpl : p ∈ l
  · exact m.on hpl hj'
  · have hxl : x ∉ l := by
      intro hxl
      obtain ⟨i, hi, hf⟩ := m.tree.frame.symm.get?_eq_some hi'
      exact hpl (hl.parent_mem hxl hi ((Item.frame_eq_iff.mp hf).2.2.1.trans hp))
    rw [m.off hxl] at hi'
    rw [m.off hpl] at hj'
    exact d hi' hdirty hp hj'

/-- After an edit that marks a line, clean items remember their images when what is not on the line
kept what its image is made of. -/
theorem Marked.coherent (m : Marked l o₁ o') (w : o.WellFormed)
    (w₁ : o₁.WellFormed) (a₁ : o₁.Attached) (c : o.Coherent)
    (hk : ∀ {y i}, o₁.get? y = some i → y ∉ l → ∃ j, o.get? y = some j ∧ j.dirty = i.dirty ∧
      j.cache = i.cache ∧ ∀ z, o.Below y z → Keeps o o₁ z) : o'.Coherent := by
  intro y i t hi hclean hcache
  have hy : y ∉ l := by
    intro hy
    rw [m.on hy hi] at hclean
    cases hclean
  rw [m.off hy] at hi
  obtain ⟨j, hj, hdirty, hmemory, hkeeps⟩ := hk hi hy
  have ht := c hj (hdirty.trans hclean) (hmemory.trans hcache)
  rw [m.tree.plainImage w₁ a₁ hi]
  exact plainImage_keeps w w₁ hj hkeeps ht

end Outline

end PackageOutline
