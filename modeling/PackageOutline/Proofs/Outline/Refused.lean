import PackageOutline.Proofs.Outline.AllOrNothing
import PackageOutline.Proofs.Outline.Rising

/-! # Refused calls

A refused call may have done something before it was refused: an item was made and not attached, an
item was changed that the root does not lead to, marks climbed up to a parent that is gone.  What the
root leads to is as it was (`Outline.Spared`), and with it the walk and the document.

Every item that the root leads to has a line, and marks that start there arrive at the root.  So marks
that are refused started elsewhere, and passed no item that the root leads to
(`WellFormed.spared_of_markUp`); and the item that an edit had written by then is none of those either
(`WellFormed.spared_of_written`).

* `Call.spared_of_refused`: the edits, in any outline that calls lead to.
* `CallRun.refused_call_spares`: the same for runs, with the walk. -/

namespace PackageOutline

namespace Outline

variable {o o₀ o₁ o' o'' : Outline} {h p x : Handle} {i j k : Item} {n : Nat} {v : Violation}

/-- What the root leads to is as it was, and so is the document. -/
structure Spared (o o' : Outline) : Prop where
  document : o'.document = o.document
  get : ∀ {h}, o.Reachable h → o'.get? h = o.get? h

namespace Spared

theorem reachable (s : Spared o o') (hr : o.Reachable h) : o'.Reachable h := by
  induction hr with
  | root => exact .root
  | child hp hj hc ih => exact .child ih ((s.get hp).trans hj) hc

theorem reachable_iff (s : Spared o o') : o'.Reachable h ↔ o.Reachable h := by
  refine ⟨fun hr => ?_, s.reachable⟩
  induction hr with
  | root => exact .root
  | child _ hj hc ih => exact .child ih ((s.get ih).symm.trans hj) hc

instance : IsPreorder Outline Spared where
  refl _ := ⟨rfl, fun _ => rfl⟩
  trans _ _ _ s t := ⟨t.document.trans s.document,
    fun hr => (t.get (s.reachable hr)).trans (s.get hr)⟩

/-- An item may be written that the root does not lead to. -/
theorem set (hj : o.get? p = some j) (hp : ¬ o.Reachable p) (k : Item) : Spared o (o.set p k) :=
  ⟨rfl, fun hr => get?_set_of_ne hj k fun e => hp (e ▸ hr)⟩

/-- The walk from the root is decided by what the root leads to. -/
theorem preorder_eq (s : Spared o o') (w : o.WellFormed) (w' : o'.WellFormed)
    (hr : o.Reachable h) (depth : Nat) :
    o'.preorder o'.slots.size depth h = o.preorder o.slots.size depth h := by
  obtain ⟨i, hi⟩ := w.live_of_reachable hr
  refine w.child_induction (P := fun h => o.Reachable h → ∀ depth,
    o'.preorder o'.slots.size depth h = o.preorder o.slots.size depth h) ?_ h i hi hr depth
  intro h i hi ih hr depth
  rw [w.preorder_eq hi, w'.preorder_eq ((s.get hr).trans hi)]
  congr 1
  exact List.flatMap_congr fun c hc => ih c hc (.child hr hi hc) (depth + 1)

theorem walk_eq (s : Spared o o') (w : o.WellFormed) (w' : o'.WellFormed) :
    o'.walk Outline.root = o.walk Outline.root := by
  obtain ⟨i, hi, -⟩ := w.root
  rw [w.walk_eq hi, w'.walk_eq ((s.get .root).trans hi), s.preorder_eq w w' .root]

end Spared

/-! ### What the root leads to -/

theorem WellFormed.line_of_reachable (w : o.WellFormed) (hr : o.Reachable h) :
    ∃ l, o.Line h l := by
  induction hr with
  | root =>
      obtain ⟨r, hroot, -, hnone⟩ := w.root
      exact ⟨_, .root hroot hnone⟩
  | child _ hj hc ih =>
      obtain ⟨l, hl⟩ := ih
      obtain ⟨i, hi, hp⟩ := w.child hj hc
      exact ⟨_, .step hi hp hl⟩

theorem WellFormed.reachable_parent (w : o.WellFormed) (hr : o.Reachable h)
    (hi : o.get? h = some i) (hp : i.parent = some p) : o.Reachable p := by
  cases hr with
  | root =>
      obtain ⟨r, hroot, -, hnone⟩ := w.root
      rw [hi] at hroot
      rw [← Option.some.inj hroot, hp] at hnone
      cases hnone
  | child hq hj hc =>
      obtain ⟨i', hi', hq'⟩ := w.child hj hc
      rw [hi] at hi'
      rw [← Option.some.inj hi', hp] at hq'
      exact Option.some.inj hq' ▸ hq

theorem WellFormed.reachable_of_below (w : o.WellFormed) (hb : o.Below h x)
    (hr : o.Reachable x) : o.Reachable h := by
  induction hb with
  | self => exact hr
  | step hi hp _ ih => exact ih (w.reachable_parent hr hi hp)

theorem WellFormed.reachable_of_mem_family (w : o.WellFormed) (hi : o.get? h = some i)
    (hr : o.Reachable h) (hx : x ∈ o.family h) : o.Reachable x :=
  ((w.mem_family_iff_leads hi).mp hx).reachable hr

/-! ### Marks -/

/-- Marks that do not arrive at the root started where there is no line. -/
theorem WellFormed.spared_of_markUp {steps : Nat} (w : o.WellFormed)
    (hx : exec (Edit.markUp steps h) o = (.error v, o')) :
    (∀ l, ¬ o.Line h l) ∧ Spared o o' := by
  induction steps generalizing o h with
  | zero =>
      obtain ⟨hr, -⟩ := Prod.mk.inj hx
      cases hr
  | succ steps ih =>
      rcases exec_markUp_cases hx with ⟨hnone, -, rfl⟩ | ⟨i, hi, -, hr, -⟩ | ⟨i, p, hi, hp, hrest⟩
      · refine ⟨fun l hl => ?_, refl o'⟩
        obtain ⟨i, hi⟩ := hl.live h hl.self_mem
        rw [hnone] at hi
        cases hi
      · cases hr
      · have ag : AgreeOn Item.frame o (o.set h i.marked) := .set hi rfl
        obtain ⟨hno, s⟩ := ih (w.congr ag) hrest
        -- a line of the item would go on with one of its parent
        have hline : ∀ l, ¬ o.Line h l := by
          intro l hl
          cases hl with
          | root hi' hnone =>
              rw [hi] at hi'
              rw [← Option.some.inj hi', hp] at hnone
              cases hnone
          | step hi' hq hl =>
              rw [hi] at hi'
              rw [← Option.some.inj hi', hp] at hq
              obtain rfl := Option.some.inj hq
              exact hno _ (ag.stem.line hl)
        refine ⟨hline, IsTrans.trans _ _ _ (Spared.set hi (fun hr => ?_) _) s⟩
        obtain ⟨l, hl⟩ := w.line_of_reachable hr
        exact hline l hl

/-- A refused mark behind the writing of an item: if the root leads to that item, then the marked one
has a line. -/
theorem WellFormed.spared_of_written (w₁ : (o.set p k).WellFormed)
    (hj : o.get? p = some j) (hline : o.Reachable p → ∃ l, (o.set p k).Line h l)
    (hx : exec (Edit.markDirty h) (o.set p k) = (.error v, o')) : Spared o o' := by
  obtain ⟨hno, s⟩ := w₁.spared_of_markUp hx
  refine IsTrans.trans _ _ _ (Spared.set hj (fun hr => ?_) k) s
  obtain ⟨l, hl⟩ := hline hr
  exact hno l hl

theorem WellFormed.spared_of_rewritten (w : o.WellFormed) (w₁ : (o.set h k).WellFormed)
    (hi : o.get? h = some i) (hp : k.parent = i.parent)
    (hx : exec (Edit.markDirty h) (o.set h k) = (.error v, o')) : Spared o o' := by
  refine w₁.spared_of_written hi (fun hr => ?_) hx
  obtain ⟨l, hl⟩ := w.line_of_reachable hr
  exact ⟨l, hl.congr fun x _ => (AgreeOn.set (f := Item.parent) hi hp).get x⟩

/-! ### Edits -/

theorem WellFormed.spared_of_insert {index : Nat} (w : o.WellFormed)
    (hx : exec (Edit.insert p index h) o = (.error v, o')) : Spared o o' := by
  rcases Edit.exec_change_cases hx with ⟨e, -, rfl⟩ | ⟨o₁, hattach, hmark⟩
  · exact refl o'
  · have w₁ := w.attach hattach
    obtain ⟨i, j, hi, hp, hj, -, -, -, rfl⟩ := attach_eq_ok hattach
    refine w₁.spared_of_written hj (fun hr => ?_) hmark
    obtain ⟨l, hl⟩ := w.line_of_reachable hr
    have ag : AgreeOn Item.stem o (o.set p { j with children := j.children.insertIdx index h }) :=
      .set hj rfl
    obtain ⟨i₁, hi₁, hf⟩ := ag.get?_eq_some hi
    exact ⟨_, .step hi₁ ((Item.stem_eq_iff.mp hf).2.2.trans hp) (ag.line hl)⟩

theorem WellFormed.spared_of_create {kind : Kind} {name : String} (w : o.WellFormed)
    (hc : o.create p kind name = .ok (h, o')) : Spared o o' := by
  obtain ⟨g, -⟩ := w.free.allocate (create_eq_ok hc).2
  refine ⟨g.document, fun {x} hr => ?_⟩
  obtain ⟨i, hi⟩ := w.live_of_reachable hr
  rw [g.elsewhere hi, hi]

theorem Tended.spared_of_add {kind : Kind} {name : String} (t : Tended n o)
    (hx : exec (Edit.add p kind name) o = (.error v, o')) : Spared o o' := by
  rcases Edit.exec_changeWith_cases hx with ⟨e, -, rfl⟩ | ⟨h, o₁, hcreate, hrest⟩
  · exact refl o'
  have s := t.tree.spared_of_create hcreate
  rcases Edit.exec_read_cases hrest with ⟨e, -, -, rfl⟩ | ⟨above, -, hrest'⟩
  · exact s
  rcases exec_bind_cases hrest' with ⟨e, hinsert, -⟩ | ⟨_, o₃, -, hpure⟩
  · exact IsTrans.trans _ _ _ s ((t.create hcreate).tree.spared_of_insert hinsert)
  · obtain ⟨hr, -⟩ := Prod.mk.inj hpure
    cases hr

theorem WellFormed.spared_of_setContents {c : Bytes} {f : Failure} (w : o.WellFormed)
    (hx : exec (Edit.setContents h c) o = (.error f, o')) : Spared o o' := by
  cases hi : o.get? h with
  | none =>
      unfold Edit.setContents Outline.item at hx
      rw [exec_bind, exec_adapt, Edit.exec_read, hi] at hx
      obtain rfl := (Prod.mk.inj hx).2
      exact refl o
  | some i =>
      rw [exec_setContents hi] at hx
      split at hx
      · have w₁ : (o.set h { i with contents := some c }).WellFormed := w.congr (.set hi rfl)
        rw [exec_adapt] at hx
        rcases hmark : exec (Edit.markDirty h) (o.set h { i with contents := some c }) with ⟨r, o₁⟩
        rw [hmark] at hx
        cases r with
        | ok _ => cases (Prod.mk.inj hx).1
        | error v =>
            obtain rfl := (Prod.mk.inj hx).2
            exact w.spared_of_rewritten w₁ hi rfl hmark
      · obtain rfl := (Prod.mk.inj hx).2
        exact refl o

/-! ### Renaming -/

theorem WellFormed.exec_keepFiles_isOk {document : SharedTree} (w : o.WellFormed)
    (hdoc : o.document = some document) {walked : List (Handle × Nat)}
    (lines : ∀ q ∈ walked, ∃ l, o.Line q.1 l) :
    ∃ o', exec (walked.forM fun q => Edit.keepFile document q.1) o = (.ok (), o') := by
  induction walked generalizing o with
  | nil => exact ⟨o, rfl⟩
  | cons q walked ih =>
      obtain ⟨l, hl⟩ := lines q List.mem_cons_self
      obtain ⟨i, hi⟩ := hl.live q.1 hl.self_mem
      obtain ⟨o₁, hrun, f⟩ := w.exec_keepFile hl hi hdoc
      obtain ⟨o', hrun'⟩ := ih (w.congr f.frame) (f.document.trans hdoc) fun q hq => by
        obtain ⟨l, hl⟩ := lines q (List.mem_cons_of_mem _ hq)
        exact ⟨l, f.frame.stem.line hl⟩
      refine ⟨o', ?_⟩
      show exec (Edit.keepFile document q.1 >>= fun _ => walked.forM fun q =>
        Edit.keepFile document q.1) o = _
      rw [exec_bind_of_ok hrun, hrun']

theorem WellFormed.exec_keepContents_isOk (w : o.WellFormed) (hi : o.get? h = some i)
    (hr : o.Reachable h) : ∃ o', exec (Edit.keepContents h) o = (.ok (), o') := by
  unfold Edit.keepContents
  rw [exec_bind_of_ok (exec_get o)]
  cases hdoc : o.document with
  | none => exact ⟨o, rfl⟩
  | some document =>
      have hwalk : exec (Edit.read (·.walk h)) o = (.ok (o.preorder o.slots.size 0 h), o) :=
        Edit.exec_read_eq_ok.mpr ⟨w.walk_eq hi, rfl⟩
      simp only
      rw [exec_bind_of_ok hwalk]
      exact w.exec_keepFiles_isOk hdoc fun q hq =>
        w.line_of_reachable (w.reachable_of_mem_family hi hr (List.mem_map_of_mem hq))

theorem Spared.always_update (hp : ¬ o₀.Reachable p) (f : Item → Item) :
    Always (Preserves (Spared o₀)) (Edit.change (·.update p f)) := by
  refine Edit.always_change fun hup s => ?_
  obtain ⟨j, hj, rfl⟩ := update_eq_ok_iff.mp hup
  exact IsTrans.trans _ _ _ s (.set hj (fun hr => hp (s.reachable_iff.mp hr)) _)

theorem Spared.always_keepFile (document : SharedTree) (hp : ¬ o₀.Reachable p) :
    Always (Preserves (Spared o₀)) (Edit.keepFile document p) := by
  refine (Edit.always_read _).bind fun i => ?_
  split
  · refine (Edit.always_read _).bind fun names => ?_
    split
    · exact .pure ()
    · exact always_update hp _
  · exact .pure ()

/-- Below an item that the root does not lead to, contents may be kept. -/
theorem WellFormed.spared_of_keepContents {r : Except Violation Unit} (w : o.WellFormed)
    (hi : o.get? h = some i) (hr : ¬ o.Reachable h)
    (hx : exec (Edit.keepContents h) o = (r, o')) : Spared o o' := by
  unfold Edit.keepContents at hx
  rw [exec_bind_of_ok (exec_get o)] at hx
  cases hdoc : o.document with
  | none =>
      simp only [hdoc] at hx
      obtain rfl := (Prod.mk.inj hx).2
      exact refl o
  | some document =>
      have hwalk : exec (Edit.read (·.walk h)) o = (.ok (o.preorder o.slots.size 0 h), o) :=
        Edit.exec_read_eq_ok.mpr ⟨w.walk_eq hi, rfl⟩
      simp only [hdoc] at hx
      rw [exec_bind_of_ok hwalk] at hx
      have keep : Always (Preserves (Spared o)) ((o.preorder o.slots.size 0 h).forM fun q =>
          Edit.keepFile document q.1) := by
        refine Always.forM fun q hq => Spared.always_keepFile document fun hq' => hr ?_
        exact w.reachable_of_below (w.below_of_mem_family hi (List.mem_map_of_mem hq)) hq'
      exact keep hx (refl o)

theorem WellFormed.spared_of_named {name : String} (w : o.WellFormed) (hi : o.get? h = some i)
    (hname : o.checkName h i name = .ok ()) (a : Alike look o o₁)
    (s : o.Reachable h ∨ Spared o o₁) (hx : exec (Edit.change (·.update h fun i =>
      { i with name }) >>= fun _ => Edit.markDirty h) o₁ = (.error v, o')) : Spared o o' := by
  obtain ⟨k, hk, hkf⟩ := a.frame.agree.get?_eq_some hi
  have hchange : exec (Edit.change (·.update h fun i => { i with name })) o₁ =
      (.ok (), o₁.set h { k with name }) := Edit.exec_change_eq_ok.mpr (update_of_get? hk _)
  rw [exec_bind_of_ok hchange] at hx
  have w₁ := w.rename hi hname a.frame.agree hk
  have ag : AgreeOn Item.parent o₁ (o₁.set h { k with name }) := .set hk rfl
  rcases s with hr | s
  · obtain ⟨l, hl⟩ := w.line_of_reachable hr
    obtain ⟨hno, -⟩ := w₁.spared_of_markUp hx
    exact absurd ((a.frame.agree.stem.line hl).congr fun x _ => ag.get x) (hno l)
  · exact IsTrans.trans _ _ _ s ((w.congr a.frame.agree).spared_of_rewritten w₁ hk rfl hx)

theorem WellFormed.spared_of_rename {name : String} (w : o.WellFormed)
    (hx : exec (Edit.rename h name) o = (.error v, o')) : Spared o o' := by
  unfold Edit.rename at hx
  rcases Edit.exec_read_cases hx with ⟨e, -, -, rfl⟩ | ⟨i, hitem, hrest⟩
  · exact refl o'
  rcases Edit.exec_read_cases hrest with ⟨e, -, -, rfl⟩ | ⟨_, hname, hrest'⟩
  · exact refl o'
  have hi := item_eq_ok_iff.mp hitem
  split at hrest'
  · by_cases hr : o.Reachable h
    · obtain ⟨o₁, hkeep⟩ := w.exec_keepContents_isOk hi hr
      rw [exec_bind_of_ok hkeep] at hrest'
      exact w.spared_of_named hi hname (Edit.keepContents_alike h hkeep) (Or.inl hr) hrest'
    · rcases exec_bind_cases hrest' with ⟨e, hkeep, -⟩ | ⟨_, o₁, hkeep, hnamed⟩
      · exact w.spared_of_keepContents hi hr hkeep
      · exact w.spared_of_named hi hname (Edit.keepContents_alike h hkeep)
          (Or.inr (w.spared_of_keepContents hi hr hkeep)) hnamed
  · exact w.spared_of_named hi hname (refl o) (Or.inr (refl o)) hrest'

/-! ### Removing -/

theorem WellFormed.spared_of_remove (w : o.WellFormed)
    (hx : exec (Edit.remove h) o = (.error v, o')) : Spared o o' := by
  rcases w.remove_refused_or_done hx with ⟨-, rfl⟩ | ⟨hr, -⟩
  · exact refl o'
  · cases hr

theorem WellFormed.spared_of_move {start stop : Nat} (w : o.WellFormed)
    (hx : exec (Edit.move p start stop) o = (.error v, o')) : Spared o o' := by
  rcases Edit.exec_change_cases hx with ⟨e, -, rfl⟩ | ⟨o₁, hmove, hmark⟩
  · exact refl o'
  · obtain ⟨j, c, hj, hc, hstop, rfl⟩ := moveChild_eq_ok hmove
    exact w.spared_of_rewritten (w.permute hj (perm_of_move hc hstop)) hj rfl hmark

theorem WellFormed.spared_of_reorder {order : List Handle} (w : o.WellFormed)
    (hx : exec (Edit.reorder p order) o = (.error v, o')) : Spared o o' := by
  rcases Edit.exec_change_cases hx with ⟨e, -, rfl⟩ | ⟨o₁, harrange, hmark⟩
  · exact refl o'
  · obtain ⟨j, hj, horder, rfl⟩ := arrange_eq_ok harrange
    have hperm := (isReorder_iff (w.nodup hj)).mp horder
    exact w.spared_of_rewritten (w.permute hj hperm) hj rfl hmark

end Outline

/-! ### Calls -/

namespace Call

open Outline

variable {c : Call} {n : Nat} {o : Outline} {W W' : Workspace} {f : Failure}

/-- Whether a call edits the outline, and does not make images or commit a document. -/
def isEdit : Call → Bool
  | image .. | refresh .. | commit .. => false
  | _ => true

theorem refused_of_work {α : Type} {e : Edit α} (hx : exec e.work W = (.error f, W')) :
    ∃ v, exec e W.outline = (.error v, W'.outline) ∧ f = .violation v ∧
      W' = { W with outline := W'.outline } := by
  unfold Edit.work at hx
  rw [Workspace.exec_edit, exec_adapt] at hx
  obtain ⟨hr, rfl⟩ := Prod.mk.inj hx
  rw [exec_bind] at hr ⊢
  rcases hrun : exec e W.outline with ⟨v | a, o'⟩
  · rw [hrun] at hr
    exact ⟨v, rfl, (Except.error.inj hr).symm, rfl⟩
  · rw [hrun] at hr
    cases hr

/-- A refused edit spares what the root leads to. -/
theorem spared_of_refused (t : Tended n W.outline) (hc : c.isEdit = true)
    (hx : exec c.work W = (.error f, W')) : Spared W.outline W'.outline := by
  have w := t.tree
  cases c with
  | create p kind name =>
      obtain ⟨v, hx, -⟩ := refused_of_work hx
      rw [Edit.eq_of_changeWith_error hx]
      exact refl _
  | add p kind name =>
      obtain ⟨v, hx, -⟩ := refused_of_work hx
      exact t.spared_of_add hx
  | attach p index h =>
      obtain ⟨v, hx, -⟩ := refused_of_work hx
      rw [Edit.eq_of_change_error hx]
      exact refl _
  | insert p index h =>
      obtain ⟨v, hx, -⟩ := refused_of_work hx
      exact w.spared_of_insert hx
  | setContents h c => exact w.spared_of_setContents (Workspace.exec_of_edit hx)
  | markDirty h =>
      obtain ⟨v, hx, -⟩ := refused_of_work hx
      exact (w.spared_of_markUp hx).2
  | rename h name =>
      obtain ⟨v, hx, -⟩ := refused_of_work hx
      exact w.spared_of_rename hx
  | remove h =>
      obtain ⟨v, hx, -⟩ := refused_of_work hx
      exact w.spared_of_remove hx
  | move p start stop =>
      obtain ⟨v, hx, -⟩ := refused_of_work hx
      exact w.spared_of_move hx
  | reorder p order =>
      obtain ⟨v, hx, -⟩ := refused_of_work hx
      exact w.spared_of_reorder hx
  | image held h => cases hc
  | refresh held h => cases hc
  | commit document => cases hc

theorem tree_of_refused (t : Tended n W.outline) (hx : exec c.work W = (.error f, W')) :
    W'.outline.WellFormed := by
  have hafter : c.after W = W' := congrArg Prod.snd hx
  by_cases hc : ∃ h, c = .remove h
  · obtain ⟨h, rfl⟩ := hc
    obtain ⟨v, hx, -⟩ := refused_of_work hx
    rcases t.tree.remove_refused_or_done hx with ⟨-, ho⟩ | ⟨hr, -⟩
    · exact ho ▸ t.tree
    · cases hr
  · have t' := (Tended.upheld fun _ _ => True).call c trivial (fun h he => hc ⟨h, he⟩) t
    exact hafter ▸ t'.tree

end Call

/-- Whatever was called before: when an edit is refused, the walk from the root, all that the root
leads to and the document are as they were. -/
theorem CallRun.refused_call_spares {may : Outline → Call → Prop} {n : Nat} {W W' : Workspace}
    {c : Call} {f : Failure} (run : CallRun may n W) (hn : n < 2 ^ 32) (hc : c.isEdit = true)
    (hx : exec c.work W = (.error f, W')) :
    W'.outline.walk Outline.root = W.outline.walk Outline.root ∧
      W'.outline.document = W.outline.document ∧
      (∀ h, W'.outline.Reachable h ↔ W.outline.Reachable h) ∧
      ∀ h, W.outline.Reachable h → W'.outline.get? h = W.outline.get? h := by
  have t := run.upheld (Outline.Tended.upheld may) hn
  have s := Call.spared_of_refused t hc hx
  exact ⟨s.walk_eq t.tree (Call.tree_of_refused t hx), s.document, fun _ => s.reachable_iff,
    fun _ hr => s.get hr⟩

/-- A file that was made for a folder and not attached, whose parent is gone: it gets its contents
before the mark is refused. -/
theorem CallRun.refused_call_spares_of_detached_file : ∃ (n : Nat) (W W' : Workspace) (v : Violation),
    CallRun (fun _ _ => True) n W ∧ n < 2 ^ 32 ∧
    exec (Call.setContents ⟨3, 0⟩ [0x31]).work W = (.error (.violation v), W') ∧
    (W.outline.get? ⟨3, 0⟩).map Item.contents = some none ∧
    (W'.outline.get? ⟨3, 0⟩).map Item.contents = some (some [0x31]) ∧
    W'.outline.walk Outline.root = W.outline.walk Outline.root ∧
    W'.outline.document = W.outline.document ∧
    (∀ h, W'.outline.Reachable h ↔ W.outline.Reachable h) ∧
    ∀ h, W.outline.Reachable h → W'.outline.get? h = W.outline.get? h := by
  obtain ⟨W, run, hrefused, hbefore, hafter⟩ := CallRun.exists_of_play (fun _ _ => True) "P"
    [.add Outline.root .group "Package", .add ⟨1, 0⟩ .folder "d", .create ⟨2, 0⟩ .file "x",
      .remove ⟨2, 0⟩]
    1 (fun W =>
      (match (exec (Call.setContents ⟨3, 0⟩ [0x31]).work W).1 with
        | .error (.violation _) => true
        | _ => false) = true ∧
      (W.outline.get? ⟨3, 0⟩).map Item.contents = some none ∧
      ((exec (Call.setContents ⟨3, 0⟩ [0x31]).work W).2.outline.get? ⟨3, 0⟩).map Item.contents =
        some (some [0x31])) (by decide +kernel)
  have hless : 1 < 2 ^ 32 := by decide
  rcases hx : exec (Call.setContents ⟨3, 0⟩ [0x31]).work W with ⟨r, W'⟩
  rw [hx] at hrefused hafter
  split at hrefused
  · rename_i v hr
    obtain rfl : r = .error (.violation v) := hr
    exact ⟨1, W, W', v, run, hless, hx, hbefore, hafter, run.refused_call_spares hless rfl hx⟩
  · cases hrefused

end PackageOutline
