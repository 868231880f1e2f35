import PackageOutline.Proofs.Outline.Runs

/-! # The document

Only a commit replaces the document of an outline: edits, images and refreshes leave it alone
(`EditStep.Takes.document`). -/

namespace PackageOutline

/-- Whether two outlines have one document. -/
def Outline.SameDocument (o o' : Outline) : Prop := o'.document = o.document

instance : IsPreorder Outline Outline.SameDocument where
  refl _ := rfl
  trans _ _ _ h h' := h'.trans h

namespace Edit

open Outline

variable {α : Type} {h p : Handle}

theorem read_document (f : Outline → Except Violation α) : Always SameDocument (read f) := by
  intro o r o' hx
  rw [exec_read] at hx
  obtain ⟨-, rfl⟩ := Prod.mk.inj hx
  rfl

theorem change_document {f : Outline → Except Violation Outline}
    (hf : ∀ {o o'}, f o = .ok o' → o'.document = o.document) : Always SameDocument (change f) := by
  intro o r o' hx
  unfold change at hx
  rw [exec_mk] at hx
  split at hx
  · rename_i o₁ h₁
    obtain ⟨-, rfl⟩ := Prod.mk.inj hx
    exact hf h₁
  · obtain ⟨-, rfl⟩ := Prod.mk.inj hx
    rfl

theorem changeWith_document {f : Outline → Except Violation (α × Outline)}
    (hf : ∀ {o a o'}, f o = .ok (a, o') → o'.document = o.document) :
    Always SameDocument (changeWith f) := by
  intro o r o' hx
  unfold changeWith at hx
  rw [exec_mk] at hx
  split at hx
  · rename_i a o₁ h₁
    obtain ⟨-, rfl⟩ := Prod.mk.inj hx
    exact hf h₁
  · obtain ⟨-, rfl⟩ := Prod.mk.inj hx
    rfl

theorem update_document (h : Handle) (f : Item → Item) :
    Always SameDocument (change (·.update h f)) := by
  refine change_document fun hu => ?_
  obtain ⟨i, -, rfl⟩ := update_eq_ok_iff.mp hu
  rfl

theorem markUp_document (steps : Nat) (h : Handle) : Always SameDocument (markUp steps h) := by
  induction steps generalizing h with
  | zero => exact Always.pure ()
  | succ steps ih =>
      unfold markUp
      refine (read_document _).bind fun i => (update_document h _).bind fun _ => ?_
      split
      · exact Always.pure ()
      · exact ih _

theorem markDirty_document (h : Handle) : Always SameDocument (markDirty h) :=
  Always.get.bind fun o => markUp_document o.slots.size h

theorem create_document (p : Handle) (kind : Kind) (name : String) :
    Always SameDocument (create p kind name) := by
  refine changeWith_document fun {o a o'} hc => ?_
  rcases allocate_eq_ok (create_eq_ok hc).2 with ⟨free, -, -, rfl⟩ | ⟨-, -, rfl⟩ <;> rfl

theorem insert_document (p : Handle) (index : Nat) (h : Handle) :
    Always SameDocument (insert p index h) := by
  refine Always.bind (change_document fun ha => ?_) fun _ => markDirty_document h
  obtain ⟨i, j, -, -, -, -, -, -, rfl⟩ := attach_eq_ok ha
  rfl

theorem keepFile_document (document : SharedTree) (h : Handle) :
    Always SameDocument (keepFile document h) := by
  refine (read_document _).bind fun i => ?_
  split
  · refine (read_document _).bind fun names => ?_
    split
    · exact Always.pure ()
    · exact update_document h _
  · exact Always.pure ()

theorem keepContents_document (h : Handle) : Always SameDocument (keepContents h) := by
  refine Always.get.bind fun o => ?_
  split
  · exact Always.pure ()
  · refine (read_document _).bind fun walked => ?_
    refine Always.forM fun q _ => ?_
    exact keepFile_document _ q.1

theorem rename_document (h : Handle) (name : String) : Always SameDocument (rename h name) := by
  refine (read_document _).bind fun i => (read_document _).bind fun _ => ?_
  split
  · refine (keepContents_document h).bind fun _ => ?_
    exact (update_document h _).bind fun _ => markDirty_document h
  · exact (update_document h _).bind fun _ => markDirty_document h

theorem releasePending_document (steps : Nat) (pending : List Handle) :
    Always SameDocument (releasePending steps pending) := by
  induction steps generalizing pending with
  | zero => cases pending <;> exact Always.pure ()
  | succ steps ih =>
      cases pending with
      | nil => exact Always.pure ()
      | cons h pending =>
          unfold releasePending
          refine Always.bind (changeWith_document fun {o i o'} hr => ?_) fun i => ih _
          rw [release_eq_ok hr]
          rfl

theorem remove_document (h : Handle) : Always SameDocument (remove h) := by
  refine Always.bind (changeWith_document fun {o p o'} hd => ?_) fun p => ?_
  · obtain ⟨i, j, -, -, -, -, rfl⟩ := detach_eq_ok hd
    rfl
  · refine Always.get.bind fun o => ?_
    exact (releasePending_document _ _).bind fun _ => markDirty_document p

theorem setContents_document (h : Handle) (c : Bytes) : Always SameDocument (setContents h c) := by
  refine ((read_document _).adapt _).bind fun i => ?_
  split
  · exact ((update_document h _).bind fun _ => markDirty_document h).adapt _
  · exact Always.throw _

theorem call_document (c : EditCall) : Always SameDocument c.edit := by
  cases c with
  | add parent kind name =>
      refine Always.adapt (Always.bind ?_ fun _ => Always.pure ()) _
      refine (create_document parent kind name).bind fun h => (read_document _).bind fun i => ?_
      exact (insert_document parent _ h).bind fun _ => Always.pure h
  | insertNew parent kind name below index =>
      exact Always.adapt ((create_document parent kind name).bind fun h =>
        insert_document below index h) _
  | setContents item contents => exact setContents_document item contents
  | markDirty item => exact (markDirty_document item).adapt _
  | rename item name => exact (rename_document item name).adapt _
  | remove item => exact (remove_document item).adapt _
  | move parent start stop =>
      refine Always.adapt (Always.bind (change_document fun hm => ?_) fun _ =>
        markDirty_document parent) _
      obtain ⟨j, c, -, -, -, rfl⟩ := moveChild_eq_ok hm
      rfl
  | reorder parent order =>
      refine Always.adapt (Always.bind (change_document fun ha => ?_) fun _ =>
        markDirty_document parent) _
      obtain ⟨j, -, -, rfl⟩ := arrange_eq_ok ha
      rfl

end Edit

/-- Steps that commit nothing leave the document alone. -/
theorem EditStep.Takes.document {W W' : Workspace} {s : EditStep} (so : W.outline.Sound)
    (hs : s.Takes W W') (hne : ∀ held, s ≠ .save held) :
    W'.outline.document = W.outline.document := by
  cases hs with
  | edit hlive hx hr => exact Edit.call_document _ (Workspace.exec_of_edit hx)
  | image hreach hx =>
      obtain ⟨i, hi⟩ := so.tree.live_of_reachable hreach
      exact (Workspace.exec_image so hi hx).2.cleared.tree.document
  | refresh hreach hx =>
      obtain ⟨i, hi⟩ := so.tree.live_of_reachable hreach
      exact (Workspace.exec_refresh so hi hx).kept.cleared.tree.document
  | @save _ _ _ held => exact absurd rfl (hne held)

end PackageOutline
