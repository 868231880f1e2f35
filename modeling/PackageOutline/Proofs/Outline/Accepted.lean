import Mathlib.Data.List.Perm.Subperm
import PackageOutline.Proofs.Exec
import PackageOutline.Proofs.Outline.WellFormed

/-! # Accepted edits

What is known when a check, a step of an edit or a whole edit is not refused.  Each lemma says it once;
proofs about edits do not open the checks again. -/

namespace PackageOutline

namespace Outline

variable {o o' : Outline} {h p : Handle} {i j : Item} {name : String} {kind : Kind}
  {index : Nat} {order : List Handle}

/-! ### Checks -/

theorem checkPlacement_eq_ok (hc : o.checkPlacement p kind name = .ok ()) :
    Identifier.isValid name = true ∧
      (kind = .group → p = Outline.root ∧ Identifier.isGroup name = true) ∧
      ∃ j, o.get? p = some j ∧ j.kind.admits kind = true := by
  unfold checkPlacement at hc
  simp only [throw_bind, guard_eq_ok] at hc
  obtain ⟨hvalid, hc⟩ := hc
  split at hc
  · simp only [guard_eq_ok, bind_eq_ok, item_eq_ok_iff] at hc
    obtain ⟨hroot, hname, j, hj, hadmits, -⟩ := hc
    exact ⟨hvalid, fun _ => ⟨hroot, hname⟩, j, hj, hadmits⟩
  · rename_i hg
    simp only [bind_eq_ok, guard_eq_ok, item_eq_ok_iff] at hc
    obtain ⟨j, hj, hadmits, -⟩ := hc
    exact ⟨hvalid, fun hg' => absurd hg' hg, j, hj, hadmits⟩

theorem checkSiblings_eq_ok {self : Option Handle} (hc : o.checkSiblings p name self = .ok ()) :
    ∃ j, o.get? p = some j ∧ ∀ {c k}, c ∈ j.children → some c ≠ self → o.get? c = some k →
      k.name ≠ name := by
  unfold checkSiblings at hc
  simp only [bind_eq_ok, item_eq_ok_iff] at hc
  obtain ⟨j, hj, hc⟩ := hc
  split at hc
  · simp only [bind_eq_ok, throw_eq_ok, and_false, exists_false] at hc
  · rename_i hany
    refine ⟨j, hj, fun {c k} hmem hself hk hname => hany ?_⟩
    refine List.any_eq_true.mpr ⟨c, hmem, ?_⟩
    simp [hself, isNamed, hk, hname]

theorem checkName_eq_ok (hc : o.checkName h i name = .ok ()) :
    (i.kind = .group → Identifier.isGroup name = true) ∧
      ∀ p, i.parent = some p → Identifier.isValid name = true ∧
        o.checkSiblings p name (some h) = .ok () := by
  unfold checkName at hc
  cases hp : i.parent with
  | none =>
      simp only [hp] at hc
      refine ⟨fun hg => ?_, fun p hp' => by cases hp'⟩
      simp only [hg, ↓reduceIte, guard_eq_ok] at hc
      exact hc.1
  | some p =>
      simp only [hp, throw_bind, guard_eq_ok, bind_eq_ok] at hc
      obtain ⟨hvalid, u, hs, hc⟩ := hc
      refine ⟨fun hg => ?_, fun q hq => ?_⟩
      · rw [if_pos hg, guard_eq_ok] at hc
        exact hc.1
      · obtain rfl := Option.some.inj hq
        exact ⟨hvalid, hs⟩

/-! ### Steps -/

theorem create_eq_ok (hc : o.create p kind name = .ok (h, o')) :
    o.checkPlacement p kind name = .ok () ∧
      o.allocate { kind, name, parent := some p } = .ok (h, o') := by
  unfold create at hc
  obtain ⟨u, hplace, halloc⟩ := bind_eq_ok.mp hc
  exact ⟨hplace, halloc⟩

theorem attach_eq_ok (ha : o.attach p index h = .ok o') :
    ∃ i j, o.get? h = some i ∧ i.parent = some p ∧ o.get? p = some j ∧ h ∉ j.children ∧
      index ≤ j.children.length ∧ o.checkSiblings p i.name none = .ok () ∧
      o' = o.set p { j with children := j.children.insertIdx index h } := by
  unfold attach at ha
  simp only [throw_bind, guard_eq_ok, bind_eq_ok, item_eq_ok_iff] at ha
  obtain ⟨i, hi, hp, j, hj, ha⟩ := ha
  split at ha
  · simp only [throw_eq_ok] at ha
  · rename_i hmem
    obtain ⟨u, hs, hlen, ho⟩ := by simpa only [bind_eq_ok, guard_eq_ok, pure_eq_ok] using ha
    exact ⟨i, j, hi, hp, hj, by simpa using hmem, hlen, hs, ho.symm⟩

theorem detach_eq_ok (hd : o.detach h = .ok (p, o')) :
    ∃ i j, o.get? h = some i ∧ i.parent = some p ∧ o.get? p = some j ∧ h ∈ j.children ∧
      o' = o.set p { j with children := j.children.erase h } := by
  unfold detach at hd
  simp only [bind_eq_ok, item_eq_ok_iff] at hd
  obtain ⟨i, hi, hd⟩ := hd
  cases hp : i.parent with
  | none =>
      simp only [hp, throw_eq_ok] at hd
  | some q =>
      simp only [hp, throw_bind, guard_eq_ok, bind_eq_ok, item_eq_ok_iff, pure_eq_ok,
        Prod.mk.injEq] at hd
      obtain ⟨-, -, j, hj, hmem, rfl, rfl⟩ := hd
      exact ⟨i, j, hi, hp, hj, by simpa using hmem, rfl⟩

theorem moveChild_eq_ok {start stop : Nat} (hm : o.moveChild p start stop = .ok o') :
    ∃ j c, o.get? p = some j ∧ j.children[start]? = some c ∧ stop < j.children.length ∧
      o' = o.set p { j with children := (j.children.eraseIdx start).insertIdx stop c } := by
  unfold moveChild at hm
  simp only [bind_eq_ok, item_eq_ok_iff] at hm
  obtain ⟨j, hj, hm⟩ := hm
  cases hc : j.children[start]? with
  | none =>
      simp only [hc, throw_eq_ok] at hm
  | some c =>
      simp only [hc, throw_bind, guard_eq_ok, pure_eq_ok] at hm
      exact ⟨j, c, hj, hc, hm.1, hm.2.symm⟩

theorem arrange_eq_ok (ha : o.arrange p order = .ok o') :
    ∃ j, o.get? p = some j ∧ isReorder order j.children = true ∧
      o' = o.set p { j with children := order } := by
  unfold arrange at ha
  simp only [bind_eq_ok, item_eq_ok_iff] at ha
  obtain ⟨j, hj, ha⟩ := ha
  split at ha
  · exact ⟨j, hj, ‹_›, (pure_eq_ok.mp ha).symm⟩
  · simp only [bind_eq_ok, throw_eq_ok, and_false, exists_false, false_and] at ha

/-- Of children without repeats a new order is taken exactly when it is a permutation. -/
theorem isReorder_iff {children : List Handle} (hn : children.Nodup) :
    isReorder order children = true ↔ order.Perm children := by
  unfold isReorder
  simp only [Bool.and_eq_true, decide_eq_true_eq, List.all_eq_true, List.contains_iff_mem]
  constructor
  · rintro ⟨⟨hlen, -⟩, hsub⟩
    exact ((hn.subperm hsub).perm_of_length_le (Nat.le_of_eq hlen)).symm
  · intro hperm
    exact ⟨⟨hperm.length_eq, fun c hc => hperm.mem_iff.mp hc⟩, fun c hc => hperm.mem_iff.mpr hc⟩

theorem perm_of_move {children : List Handle} {c : Handle} {start stop : Nat}
    (hc : children[start]? = some c) (hs : stop < children.length) :
    ((children.eraseIdx start).insertIdx stop c).Perm children := by
  obtain ⟨hlt, rfl⟩ := List.getElem?_eq_some_iff.mp hc
  have hlen : (children.eraseIdx start).length = children.length - 1 :=
    List.length_eraseIdx_of_lt hlt
  exact (List.perm_insertIdx _ _ (by omega)).trans (List.getElem_cons_eraseIdx_perm hlt)

end Outline

/-! ### Edits -/

namespace Edit

open Outline

variable {o o' : Outline} {h p q : Handle} {kind : Kind} {name : String} {index : Nat}

theorem exec_insert_eq_ok (hx : exec (insert p index h) o = (.ok (), o')) :
    ∃ o₁, o.attach p index h = .ok o₁ ∧ exec (markDirty h) o₁ = (.ok (), o') := by
  obtain ⟨_, o₁, hattach, hmark⟩ := exec_bind_eq_ok.mp hx
  exact ⟨o₁, exec_change_eq_ok.mp hattach, hmark⟩

theorem exec_insertNew_eq_ok (hx : exec (create p kind name >>= insert q index) o = (.ok (), o')) :
    ∃ h o₁ o₂, o.create p kind name = .ok (h, o₁) ∧ o₁.attach q index h = .ok o₂ ∧
      exec (markDirty h) o₂ = (.ok (), o') := by
  obtain ⟨h, o₁, hcreate, hinsert⟩ := exec_bind_eq_ok.mp hx
  obtain ⟨o₂, hattach, hmark⟩ := exec_insert_eq_ok hinsert
  exact ⟨h, o₁, o₂, exec_changeWith_eq_ok.mp hcreate, hattach, hmark⟩

theorem exec_add_eq_ok (hx : exec (add p kind name) o = (.ok h, o')) :
    ∃ o₁ index o₂, o.create p kind name = .ok (h, o₁) ∧ o₁.attach p index h = .ok o₂ ∧
      exec (markDirty h) o₂ = (.ok (), o') := by
  obtain ⟨h', o₁, hcreate, hrest⟩ := exec_bind_eq_ok.mp hx
  obtain ⟨above, _, hread, hrest'⟩ := exec_bind_eq_ok.mp hrest
  obtain ⟨-, rfl⟩ := exec_read_eq_ok.mp hread
  obtain ⟨_, _, hinsert, hpure⟩ := exec_bind_eq_ok.mp hrest'
  obtain ⟨o₂, hattach, hmark⟩ := exec_insert_eq_ok hinsert
  obtain ⟨hh, rfl⟩ := Prod.mk.inj hpure
  obtain rfl := Except.ok.inj hh
  exact ⟨_, _, o₂, exec_changeWith_eq_ok.mp hcreate, hattach, hmark⟩

/-- Contents are kept when the item stands on a path, and then it is given the name. -/
theorem exec_rename_eq_ok (hx : exec (rename h name) o = (.ok (), o')) :
    ∃ i o₁ k, o.get? h = some i ∧ o.checkName h i name = .ok () ∧
      (if i.kind.namesPath then exec (keepContents h) o = (.ok (), o₁) else o₁ = o) ∧
      o₁.get? h = some k ∧ exec (markDirty h) (o₁.set h { k with name }) = (.ok (), o') := by
  unfold rename at hx
  obtain ⟨i, _, hread, hrest⟩ := exec_bind_eq_ok.mp hx
  obtain ⟨hitem, rfl⟩ := exec_read_eq_ok.mp hread
  obtain ⟨_, o₀, hcheck, hrest'⟩ := exec_bind_eq_ok.mp hrest
  obtain ⟨hname, rfl⟩ := exec_read_eq_ok.mp hcheck
  have named : ∀ {o₁}, exec (change (·.update h fun i => { i with name }) >>= fun _ =>
      markDirty h) o₁ = (.ok (), o') → ∃ k, o₁.get? h = some k ∧
        exec (markDirty h) (o₁.set h { k with name }) = (.ok (), o') := by
    intro o₁ hrun
    obtain ⟨_, o₂, hchange, hmark⟩ := exec_bind_eq_ok.mp hrun
    obtain ⟨k, hk, rfl⟩ := update_eq_ok_iff.mp (exec_change_eq_ok.mp hchange)
    exact ⟨k, hk, hmark⟩
  split at hrest'
  · rename_i hpath
    obtain ⟨_, o₁, hkeep, hrun⟩ := exec_bind_eq_ok.mp hrest'
    obtain ⟨k, hk, hmark⟩ := named hrun
    exact ⟨i, o₁, k, item_eq_ok_iff.mp hitem, hname, by rwa [if_pos hpath], hk, hmark⟩
  · rename_i hpath
    obtain ⟨k, hk, hmark⟩ := named hrest'
    exact ⟨i, o₀, k, item_eq_ok_iff.mp hitem, hname, by rw [if_neg hpath], hk, hmark⟩

theorem exec_remove_eq_ok (hx : exec (remove h) o = (.ok (), o')) :
    ∃ p o₁ o₂, o.detach h = .ok (p, o₁) ∧
      exec (releasePending o₁.slots.size [h]) o₁ = (.ok (), o₂) ∧
      exec (markDirty p) o₂ = (.ok (), o') := by
  obtain ⟨p, o₁, hdetach, hrest⟩ := exec_bind_eq_ok.mp hx
  rw [exec_bind_of_ok (exec_get o₁)] at hrest
  obtain ⟨_, o₂, hrelease, hmark⟩ := exec_bind_eq_ok.mp hrest
  exact ⟨p, o₁, o₂, exec_changeWith_eq_ok.mp hdetach, hrelease, hmark⟩

theorem exec_move_eq_ok {start stop : Nat} (hx : exec (move p start stop) o = (.ok (), o')) :
    ∃ o₁, o.moveChild p start stop = .ok o₁ ∧ exec (markDirty p) o₁ = (.ok (), o') := by
  obtain ⟨_, o₁, hchange, hmark⟩ := exec_bind_eq_ok.mp hx
  exact ⟨o₁, exec_change_eq_ok.mp hchange, hmark⟩

theorem exec_reorder_eq_ok {order : List Handle} (hx : exec (reorder p order) o = (.ok (), o')) :
    ∃ o₁, o.arrange p order = .ok o₁ ∧ exec (markDirty p) o₁ = (.ok (), o') := by
  obtain ⟨_, o₁, hchange, hmark⟩ := exec_bind_eq_ok.mp hx
  exact ⟨o₁, exec_change_eq_ok.mp hchange, hmark⟩

end Edit

end PackageOutline
