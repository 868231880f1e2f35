import PackageOutline.Proofs.Outline.Accepted
import PackageOutline.Proofs.Outline.Generations

/-! # Marks and memory that edits leave

Edits mark items as dirty and make them forget, and new items are clean and remember nothing.  So a
property of mark and memory that a marked item does not have is never new after an edit that makes no
item (`Outline.Inherits`), and not after any edit when a new item does not have it either. -/

namespace PackageOutline

namespace Outline

variable {o o' : Outline} {h : Handle} {i j : Item} {P : Bool → Option SharedTree → Prop}

/-- An item whose mark and memory have a property afterwards was there before, with the property. -/
def Inherits (P : Bool → Option SharedTree → Prop) (o o' : Outline) : Prop :=
  ∀ ⦃h j⦄, o'.get? h = some j → P j.dirty j.cache → ∃ i, o.get? h = some i ∧ P i.dirty i.cache

instance (P : Bool → Option SharedTree → Prop) : IsPreorder Outline (Inherits P) where
  refl _ _ j hj hp := ⟨j, hj, hp⟩
  trans _ _ _ r r' _ _ hj hp := by
    obtain ⟨i, hi, hp⟩ := r' hj hp
    exact r hi hp

theorem Inherits.set (hi : o.get? h = some i) (hj : P j.dirty j.cache → P i.dirty i.cache) :
    Inherits P o (o.set h j) := by
  intro x k hk hp
  rcases of_get?_set hi hk with ⟨rfl, rfl⟩ | ⟨-, hk⟩
  · exact ⟨i, hi, hj hp⟩
  · exact ⟨k, hk, hp⟩

theorem inherits_of_get (hj : ¬ P j.dirty j.cache)
    (hget : ∀ {x k}, o'.get? x = some k → k = j ∨ o.get? x = some k) : Inherits P o o' := by
  intro x k hk hp
  rcases hget hk with rfl | hk
  · exact absurd hp hj
  · exact ⟨k, hk, hp⟩

theorem get?_set_cases {k : Item} {x : Handle} (hk : (o.set h j).get? x = some k) :
    k = j ∨ o.get? x = some k := by
  rw [get?_eq_some_iff] at hk ⊢
  unfold set at hk
  simp only [Array.getElem?_modify] at hk
  split at hk
  · obtain ⟨slot, -, hslot⟩ := Option.map_eq_some_iff.mp hk
    exact .inl (Option.some.inj (Slot.mk.inj hslot).2).symm
  · exact .inr hk

theorem inherits_allocate (hi : ¬ P i.dirty i.cache) (ha : o.allocate i = .ok (h, o')) :
    Inherits P o o' := by
  refine inherits_of_get hi fun {x k} hk => ?_
  rcases allocate_eq_ok ha with ⟨free, -, -, rfl⟩ | ⟨-, -, rfl⟩
  · exact get?_set_cases hk
  · rw [get?_push rfl] at hk
    split at hk
    · exact .inl (Option.some.inj hk).symm
    · exact .inr hk

theorem inherits_release (hr : o.release h = .ok (i, o')) : Inherits P o o' := by
  intro x k hk hp
  refine ⟨k, ?_, hp⟩
  rw [release_eq_ok hr, get?_eq_some_iff] at hk
  rw [get?_eq_some_iff]
  unfold vacate at hk
  simp only [Array.getElem?_modify] at hk
  split at hk
  · obtain ⟨slot, -, hslot⟩ := Option.map_eq_some_iff.mp hk
    cases (Slot.mk.inj hslot).2
  · exact hk

end Outline

namespace Edit

open Outline

variable {h p : Handle} {index : Nat} {kind : Kind} {name : String} {c : Bytes}
  {P : Bool → Option SharedTree → Prop}

theorem inherits_update (u : Item → Item)
    (hu : ∀ i, P (u i).dirty (u i).cache → P i.dirty i.cache) (h : Handle) :
    Always (Inherits P) (change (·.update h u)) := by
  refine always_change fun hup => ?_
  obtain ⟨i, hi, rfl⟩ := update_eq_ok_iff.mp hup
  exact .set hi (hu i)

theorem inherits_create (new : ¬ P false none) : Always (Inherits P) (create p kind name) :=
  always_changeWith fun hc => inherits_allocate (by exact new) (create_eq_ok hc).2

theorem inherits_attach : Always (Inherits P) (attach p index h) := by
  refine always_change fun ha => ?_
  obtain ⟨i, j, -, -, hj, -, -, -, rfl⟩ := attach_eq_ok ha
  exact .set hj id

theorem inherits_keepContents (h : Handle) : Always (Inherits P) (keepContents h) := by
  refine Always.get.bind fun o => ?_
  split
  · exact .pure ()
  · refine (always_read _).bind fun walked => Always.forM fun q _ => ?_
    refine (always_read _).bind fun i => ?_
    split
    · refine (always_read _).bind fun names => ?_
      split
      · exact .pure ()
      · exact inherits_update _ (by exact fun _ => id) q.1
    · exact .pure ()

theorem inherits_releasePending (steps : Nat) (pending : List Handle) :
    Always (Inherits P) (releasePending steps pending) := by
  induction steps generalizing pending with
  | zero => cases pending <;> exact .pure ()
  | succ steps ih =>
      cases pending with
      | nil => exact .pure ()
      | cons h pending =>
          unfold releasePending
          exact (always_changeWith (R := Inherits P) inherits_release).bind fun i => ih _

section Marking

variable (marked : ¬ P true none)
include marked

theorem inherits_markUp (steps : Nat) (h : Handle) : Always (Inherits P) (markUp steps h) := by
  induction steps generalizing h with
  | zero => exact .pure ()
  | succ steps ih =>
      unfold markUp
      refine (always_read _).bind fun i => Always.bind ?_ fun _ => ?_
      · exact inherits_update _ (fun _ hp => absurd hp marked) h
      · split
        · exact .pure ()
        · exact ih _

theorem inherits_markDirty (h : Handle) : Always (Inherits P) (markDirty h) :=
  Always.get.bind fun o => inherits_markUp marked o.slots.size h

theorem inherits_insert : Always (Inherits P) (insert p index h) :=
  inherits_attach.bind fun _ => inherits_markDirty marked h

theorem inherits_add (new : ¬ P false none) : Always (Inherits P) (add p kind name) :=
  (inherits_create new).bind fun h => (always_read _).bind fun _ =>
    (inherits_insert marked).bind fun _ => .pure h

theorem inherits_rename : Always (Inherits P) (rename h name) := by
  have named : Always (Inherits P) (change (·.update h fun i => { i with name }) >>= fun _ =>
      markDirty h) := (inherits_update _ (by exact fun _ => id) h).bind fun _ => inherits_markDirty marked h
  refine (always_read _).bind fun i => (always_read _).bind fun _ => ?_
  dsimp only
  split
  · exact (inherits_keepContents h).bind fun _ => named
  · exact named

theorem inherits_remove : Always (Inherits P) (remove h) := by
  refine Always.bind (always_changeWith fun hd => ?_) fun p => Always.get.bind fun o =>
    (inherits_releasePending o.slots.size [h]).bind fun _ => inherits_markDirty marked p
  obtain ⟨i, j, -, -, hj, -, rfl⟩ := detach_eq_ok hd
  exact .set hj id

theorem inherits_move {start stop : Nat} : Always (Inherits P) (move p start stop) := by
  refine Always.bind (always_change fun hm => ?_) fun _ => inherits_markDirty marked p
  obtain ⟨j, c, hj, -, -, rfl⟩ := moveChild_eq_ok hm
  exact .set hj id

theorem inherits_reorder {order : List Handle} : Always (Inherits P) (reorder p order) := by
  refine Always.bind (always_change fun ha => ?_) fun _ => inherits_markDirty marked p
  obtain ⟨j, hj, -, rfl⟩ := arrange_eq_ok ha
  exact .set hj id

theorem inherits_setContents : Always (Inherits P) (setContents h c) := by
  refine ((always_read _).adapt _).bind fun i => ?_
  split
  · refine Always.adapt (Always.bind ?_ fun _ => inherits_markDirty marked h) _
    exact inherits_update _ (by exact fun _ => id) h
  · exact .throw _

end Marking

end Edit

end PackageOutline
