import PackageOutline.Proofs.Outline.Picture
import PackageOutline.Proofs.Outline.Runs

/-! # What an edit touches

An accepted edit marks one line: that of the item that is changed, of a new item, or of the parent
whose children change (`EditCall.Marks`).  Off that line an edit changes contents at most, and a
removal takes a family away (`Outline.Touched`).

`Sound.edit_touched` is the one place where the edits are taken one by one; what marks and memory are
after an edit follows from it. -/

namespace PackageOutline

/-- An item without its contents. -/
def Item.husk (i : Item) : Item := { i with contents := none }

theorem Item.husk_eq_iff {i j : Item} : i.husk = j.husk ↔
    i.frame = j.frame ∧ i.cache = j.cache ∧ i.dirty = j.dirty := by
  simp [husk, frame]
  tauto

namespace Outline

variable {o o₁ o' : Outline} {h p x : Handle} {i j : Item} {gone l : List Handle}

/-- The items of a line are marked, those of `gone` are gone, and the others kept all but their
contents. -/
structure Touched (gone l : List Handle) (o o' : Outline) : Prop where
  line : ∃ h, o'.Line h l
  on : ∀ {x}, x ∈ l → ∃ j, o'.get? x = some j ∧ j.dirty = true
  off : ∀ {x}, x ∉ l →
    (o'.get? x).map Item.husk = if x ∈ gone then none else (o.get? x).map Item.husk

theorem Touched.old (t : Touched gone l o o') (hx : x ∉ l) (hj : o'.get? x = some j) :
    x ∉ gone ∧ ∃ i, o.get? x = some i ∧ i.husk = j.husk := by
  have hoff := t.off hx
  rw [hj, Option.map_some] at hoff
  split at hoff
  · cases hoff
  · exact ⟨‹_›, Option.map_eq_some_iff.mp hoff.symm⟩

theorem Touched.above (t : Touched gone l o o') (hx : x ∈ l) (hb : o'.Below h x) : h ∈ l := by
  obtain ⟨top, hl⟩ := t.line
  exact hl.mem_iff.mpr (hb.trans (hl.mem_iff.mp hx))

/-- Marking a line in an outline in which off the line nothing but contents is different. -/
theorem Marked.touched (m : Marked l o₁ o') (hl : o₁.Line h l)
    (hoff : ∀ {x}, x ∉ l →
      (o₁.get? x).map Item.husk = if x ∈ gone then none else (o.get? x).map Item.husk) :
    Touched gone l o o' := by
  refine ⟨⟨h, m.tree.frame.stem.line hl⟩, fun {x} hx => ?_, fun hx => by rw [m.off hx, hoff hx]⟩
  obtain ⟨i, hi⟩ := hl.live x hx
  obtain ⟨j, hj, -⟩ := m.tree.agree.get?_eq_some hi
  exact ⟨j, hj, m.on hx hj⟩

theorem WellFormed.touched_set (w : (o₁.set h j).WellFormed) (hi : o₁.get? h = some i)
    (hp : j.parent = i.parent) (hl : o₁.Line h l)
    (hsame : ∀ x, (o₁.get? x).map Item.husk = (o.get? x).map Item.husk)
    (hm : exec (Edit.markDirty h) (o₁.set h j) = (.ok (), o')) : Touched [] l o o' := by
  have ag : AgreeOn Item.parent o₁ (o₁.set h j) := .set hi hp
  have hl₁ : (o₁.set h j).Line h l := hl.congr fun x _ => ag.get x
  refine (w.markDirty_eq_ok hl₁ hm).touched hl₁ fun {x} hx => ?_
  have hxh : x ≠ h := ne_of_mem_of_not_mem hl.self_mem hx |>.symm
  rw [get?_set_of_ne hi _ hxh, if_neg List.not_mem_nil, hsame]

theorem husk_fill (o : Outline) (l : List Handle) (x : Handle) (i : Item) :
    (o.fill l x i).husk = i.husk := by
  unfold fill
  split <;> rfl

theorem Sound.touched_place {o₂ : Outline} {kind : Kind} {name : String} {q : Handle} {index : Nat}
    (s : o.Sound) (hc : o.create p kind name = .ok (h, o₁)) (ha : o₁.attach q index h = .ok o₂)
    (hm : exec (Edit.markDirty h) o₂ = (.ok (), o')) :
    ∃ l, o.Line p l ∧ o.get? h = none ∧
      (o'.get? h).map Item.stem = some (kind, name, some p) ∧ Touched [] (h :: l) o o' := by
  obtain ⟨j, rfl, n, w₂⟩ := s.tree.create_attach s.attached hc ha
  obtain ⟨l, hl⟩ := s.tree.exists_line s.attached n.above
  have hl₂ : o₂.Line h (h :: l) := by
    refine .step n.self rfl (hl.congr_stem fun x hx => ?_)
    obtain ⟨k, hk⟩ := hl.live x hx
    obtain ⟨k', hk', hks⟩ := n.now hk
    rw [hk, hk', Option.map_some, Option.map_some, hks]
  have m := w₂.markDirty_eq_ok hl₂ hm
  refine ⟨l, hl, n.fresh, ?_, m.touched hl₂ fun {x} hx => ?_⟩
  · rw [m.tree.frame.stem.get h, n.self]
    rfl
  · rw [List.mem_cons, not_or] at hx
    have hxq : x ≠ q := ne_of_mem_of_not_mem hl.self_mem hx.2 |>.symm
    rw [n.get, if_neg hx.1, if_neg hxq, if_neg List.not_mem_nil]

theorem Sound.touched_remove (s : o.Sound) (hm : exec (Edit.remove h) o = (.ok (), o')) :
    ∃ i p l, o.get? h = some i ∧ i.parent = some p ∧ o.Line p l ∧
      Touched (o.family h) l o o' := by
  obtain ⟨i, p, hi, hp⟩ := remove_eq_ok hm
  obtain ⟨j, hj, -⟩ := s.tree.parent_of s.attached hi hp
  obtain ⟨l, hl⟩ := s.tree.exists_line s.attached hj
  obtain ⟨o₁, c, hrun⟩ := s.tree.exec_remove s.attached hi hp
  obtain ⟨w₁, -, hl₁⟩ := c.tree s.tree s.attached hi hp hl
  rw [hrun] at hm
  refine ⟨i, p, l, hi, hp, hl, (w₁.markDirty_eq_ok hl₁ hm).touched hl₁ fun {x} hx => ?_⟩
  rw [c.get]
  split
  · rfl
  · rename_i hxf
    cases hk : o.get? x with
    | none => rfl
    | some k =>
        -- only the parent loses a child, and the parent is on the line
        have hall : k.children.filter (· ∉ o.family h) = k.children :=
          List.filter_eq_self.mpr fun d hd => decide_eq_true fun hdf => hx <|
            (s.tree.eq_parent_of_child_mem_family s.attached hi hp hk hxf hd hdf).2 ▸ hl.self_mem
        rw [Option.map_some, hall]

end Outline

open Outline

namespace EditCall

/-- The items that an edit takes away. -/
def gone (o : Outline) : EditCall → List Handle
  | remove item => o.family item
  | _ => []

/-- Whether an edit marks the items of a list: the line of an item, of a new item, or of the parent. -/
def Marks (o o' : Outline) (l : List Handle) : EditCall → Prop
  | add parent kind name | insertNew parent kind name _ _ =>
    ∃ h l₀, l = h :: l₀ ∧ o.Line parent l₀ ∧ o.get? h = none ∧
      (o'.get? h).map Item.stem = some (kind, name, some parent)
  | setContents item _ => o.isFile item = true ∧ o.Line item l
  | markDirty item | rename item _ => o.Line item l
  | remove item => ∃ i p, o.get? item = some i ∧ i.parent = some p ∧ o.Line p l
  | move parent _ _ | reorder parent _ => o.Line parent l

/-- What an accepted edit comes to.  It fails, and changes nothing, only where contents are given to
what is no file. -/
inductive Outcome (c : EditCall) (o o' : Outline) (r : Except Failure Unit) : Prop
  | refused {item : Handle} {b : Bytes} {i : Item} : c = setContents item b →
      o.get? item = some i → i.kind ≠ .file → r = .error (.error (.notAFile i.kind i.name)) →
      o' = o → Outcome c o o' r
  | done {l : List Handle} : r = .ok () → c.Marks o o' l → Touched (c.gone o) l o o' →
      Outcome c o o' r

end EditCall

theorem result_of_accepted {x : Edit Unit} {r : Except Failure Unit} {o o' : Outline}
    (hx : exec (x.adapt .violation) o = (r, o')) (hr : Accepted r) :
    r = .ok () ∧ exec x o = (.ok (), o') := by
  obtain ⟨_, hrun⟩ := exec_of_accepted hx hr
  rw [exec_adapt, hrun] at hx
  exact ⟨(Prod.mk.inj hx).1.symm, hrun⟩

namespace Outline

variable {o o' : Outline} {c : EditCall} {r : Except Failure Unit}

/-- What an accepted edit of a sound outline comes to. -/
theorem Sound.outcome (s : o.Sound) (hlive : ∀ x ∈ c.items, o.Reachable x)
    (hx : exec c.edit o = (r, o')) (hr : Accepted r) : c.Outcome o o' r := by
  have w := s.tree
  have line : ∀ {x i}, o.get? x = some i → ∃ l, o.Line x l := w.exists_line s.attached
  cases c with
  | add parent kind name =>
      obtain ⟨hok, hx⟩ := result_of_accepted hx hr
      obtain ⟨h, o₁, hadd, hpure⟩ := exec_bind_eq_ok.mp hx
      obtain ⟨-, rfl⟩ := Prod.mk.inj hpure
      obtain ⟨o₂, index, o₃, hcreate, hattach, hmark⟩ := Edit.exec_add_eq_ok hadd
      obtain ⟨l, hl, hnone, hstem, t⟩ := s.touched_place hcreate hattach hmark
      exact .done hok ⟨_, l, rfl, hl, hnone, hstem⟩ t
  | insertNew parent kind name below index =>
      obtain ⟨hok, hx⟩ := result_of_accepted hx hr
      obtain ⟨h, o₁, o₂, hcreate, hattach, hmark⟩ := Edit.exec_insertNew_eq_ok hx
      obtain ⟨l, hl, hnone, hstem, t⟩ := s.touched_place hcreate hattach hmark
      exact .done hok ⟨_, l, rfl, hl, hnone, hstem⟩ t
  | setContents item contents =>
      obtain ⟨i, hi⟩ := w.live_of_reachable (hlive item List.mem_cons_self)
      rw [EditCall.edit, exec_setContents hi] at hx
      split at hx
      · rename_i hfile
        obtain ⟨l, hl⟩ := line hi
        obtain ⟨hok, hmark⟩ := result_of_accepted hx hr
        have w₁ : (o.set item { i with contents := some contents }).WellFormed :=
          w.congr (.set hi rfl)
        exact .done hok ⟨(isFile_iff hi).mpr hfile, hl⟩
          (w₁.touched_set hi rfl hl (fun _ => rfl) hmark)
      · rename_i hfile
        obtain ⟨rfl, rfl⟩ := Prod.mk.inj hx
        exact .refused rfl hi hfile rfl rfl
  | markDirty item =>
      obtain ⟨i, hi⟩ := w.live_of_reachable (hlive item List.mem_cons_self)
      obtain ⟨l, hl⟩ := line hi
      obtain ⟨hok, hmark⟩ := result_of_accepted hx hr
      exact .done hok hl ((w.markDirty_eq_ok hl hmark).touched hl fun _ =>
        (if_neg List.not_mem_nil).symm)
  | rename item name =>
      obtain ⟨hok, hx⟩ := result_of_accepted hx hr
      obtain ⟨i, k, lf, o₁, hi, hname, -, f, hk, hmark⟩ := s.rename_eq_ok hx
      obtain ⟨l, hl⟩ := line hi
      refine .done hok hl ((w.rename hi hname f.frame hk).touched_set hk rfl
        (f.frame.stem.line hl) (fun x => ?_) hmark)
      rw [f.get, Option.map_map]
      congr 1
      exact funext fun i => o.husk_fill lf x i
  | remove item =>
      obtain ⟨hok, hx⟩ := result_of_accepted hx hr
      obtain ⟨i, p, l, hi, hp, hl, t⟩ := s.touched_remove hx
      exact .done hok ⟨i, p, hi, hp, hl⟩ t
  | move parent start stop =>
      obtain ⟨hok, hx⟩ := result_of_accepted hx hr
      obtain ⟨o₁, hmove, hmark⟩ := Edit.exec_move_eq_ok hx
      obtain ⟨j, d, hj, hd, hstop, rfl⟩ := moveChild_eq_ok hmove
      obtain ⟨l, hl⟩ := line hj
      exact .done hok hl ((w.permute hj (perm_of_move hd hstop)).touched_set hj rfl hl
        (fun _ => rfl) hmark)
  | reorder parent order =>
      obtain ⟨hok, hx⟩ := result_of_accepted hx hr
      obtain ⟨o₁, harrange, hmark⟩ := Edit.exec_reorder_eq_ok hx
      obtain ⟨j, hj, horder, rfl⟩ := arrange_eq_ok harrange
      obtain ⟨l, hl⟩ := line hj
      exact .done hok hl ((w.permute hj ((isReorder_iff (w.nodup hj)).mp horder)).touched_set hj rfl
        hl (fun _ => rfl) hmark)

end Outline

end PackageOutline
