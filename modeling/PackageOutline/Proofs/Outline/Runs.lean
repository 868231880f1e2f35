import PackageOutline.Proofs.Outline.Fresh
import PackageOutline.Proofs.Outline.KeptContents
import PackageOutline.Proofs.Outline.Picture
import PackageOutline.Proofs.Outline.Refreshing
import PackageOutline.Proofs.Outline.Removal

/-! # Runs of edits

An editing run (`EditRun`) starts from a new or built outline and takes steps (`EditStep.Takes`): it
does accepted edits, asks for images, refreshes items and commits trees that were just made of the
root, in any order.

* `Sound.edit`, `Sound.commit`, `exec_image`, `exec_refresh`: what one step does.
* `EditRun.sound`: all outlines on a run are sound.
* `Workspace.play` takes steps that are given; `EditRun.play` says that it stays on a run.
* `EditRun.image_eq_plainImage`: images from memory are those that are made without it, whatever trees
  are still held. -/

namespace PackageOutline

/-- An edit that a caller asks for, with its arguments. -/
inductive EditCall where
  | add (parent : Handle) (kind : Kind) (name : String)
  | insertNew (parent : Handle) (kind : Kind) (name : String) (below : Handle) (index : Nat)
  | setContents (item : Handle) (contents : Bytes)
  | markDirty (item : Handle)
  | rename (item : Handle) (name : String)
  | remove (item : Handle)
  | move (parent : Handle) (start stop : Nat)
  | reorder (parent : Handle) (order : List Handle)

namespace EditCall

/-- The items that the edit is about. -/
def items : EditCall → List Handle
  | add parent _ _ => [parent]
  | insertNew parent _ _ below _ => [parent, below]
  | setContents item _ | markDirty item | rename item _ | remove item => [item]
  | move parent _ _ | reorder parent _ => [parent]

/-- What the edit does; an item to be inserted is made in the step before. -/
def edit : EditCall → ExceptT Failure (StateM Outline) Unit
  | add parent kind name => (Edit.add parent kind name >>= fun _ => pure ()).adapt .violation
  | insertNew parent kind name below index =>
    (Edit.create parent kind name >>= Edit.insert below index).adapt .violation
  | setContents item contents => Edit.setContents item contents
  | markDirty item => (Edit.markDirty item).adapt .violation
  | rename item name => (Edit.rename item name).adapt .violation
  | remove item => (Edit.remove item).adapt .violation
  | move parent start stop => (Edit.move parent start stop).adapt .violation
  | reorder parent order => (Edit.reorder parent order).adapt .violation

end EditCall

/-- Whether a call was accepted: it may have failed, but it broke no contract. -/
def Accepted {α : Type} (r : Except Failure α) : Prop := ∀ v, r ≠ .error (.violation v)

theorem exec_of_accepted {α : Type} {x : Edit α} {r : Except Failure α} {o o' : Outline}
    (hx : exec (x.adapt .violation) o = (r, o')) (hr : Accepted r) : ∃ a, exec x o = (.ok a, o') := by
  rw [exec_adapt] at hx
  rcases hrun : exec x o with ⟨v | a, o₁⟩
  · rw [hrun] at hx
    exact absurd (Prod.mk.inj hx).1.symm (hr v)
  · rw [hrun] at hx
    exact ⟨a, congrArg (Prod.mk _) (Prod.mk.inj hx).2⟩

/-- A step of an editing run with its arguments. -/
inductive EditStep where
  | edit (c : EditCall)
  | image (held : List SharedTree) (item : Handle)
  | refresh (held : List SharedTree) (item : Handle)
  | save (held : List SharedTree)

/-- What a step on items that are there does: an edit is accepted, and a save commits the tree that
it was just given. -/
inductive EditStep.Takes : EditStep → Workspace → Workspace → Prop
  | edit {W W' : Workspace} {r : Except Failure Unit} {c : EditCall} :
      (∀ x ∈ c.items, W.outline.Reachable x) → exec (Workspace.edit c.edit) W = (r, W') →
      Accepted r → Takes (.edit c) W W'
  | image {W W' : Workspace} {h : Handle} {held : List SharedTree}
      {r : Except Failure SharedTree} : W.outline.Reachable h →
      exec (Workspace.image held h) W = (r, W') → Takes (.image held h) W W'
  | refresh {W W' : Workspace} {h : Handle} {held : List SharedTree}
      {r : Except Failure (Option SharedTree)} : W.outline.Reachable h →
      exec (Workspace.refresh held h) W = (r, W') → Takes (.refresh held h) W W'
  | save {W W' W'' : Workspace} {held : List SharedTree} {t : SharedTree}
      {r : Except Failure Unit} :
      exec (Workspace.refresh held Outline.root) W = (.ok (some t), W') →
      exec (Workspace.commit t) W' = (r, W'') → Takes (.save held) W W''

/-- Outlines that runs start from. -/
inductive Outline.Start : Outline → Prop
  | new (package : String) (document : Option SharedTree) : Start (.new package document)
  | build {d : Description} {document : Option SharedTree} {o : Outline} :
      (d.build document).result = .ok o → Start o

/-- The workspaces that editing runs lead to. -/
inductive EditRun : Workspace → Prop
  | start {W : Workspace} : W.outline.Start → EditRun W
  | step {W W' : Workspace} {s : EditStep} : EditRun W → s.Takes W W' → EditRun W'

namespace Outline

variable {o o₁ o' : Outline} {h : Handle} {i : Item} {t : SharedTree} {P : Handle → Prop}

/-! ### Edits -/

theorem exec_markUp_dirty {steps : Nat} (hm : exec (Edit.markUp steps h) o = (.ok (), o')) :
    (∀ {x i}, o.get? x = some i → i.dirty = true → ∃ j, o'.get? x = some j ∧ j.dirty = true) ∧
      (steps ≠ 0 → ∃ j, o'.get? h = some j ∧ j.dirty = true) := by
  induction steps generalizing o h with
  | zero =>
      obtain ⟨-, rfl⟩ := Prod.mk.inj hm
      exact ⟨fun hi hd => ⟨_, hi, hd⟩, fun hn => absurd rfl hn⟩
  | succ steps ih =>
      have stays : ∀ {i x j}, o.get? h = some i → o.get? x = some j → j.dirty = true →
          ∃ j', (o.set h i.marked).get? x = some j' ∧ j'.dirty = true := by
        intro i x j hi hj hd
        by_cases hx : x = h
        · subst hx
          exact ⟨_, get?_set_self hi _, rfl⟩
        · exact ⟨j, by rw [get?_set_of_ne hi _ hx, hj], hd⟩
      rcases exec_markUp_cases hm with ⟨-, hr, -⟩ | ⟨i, hi, -, -, rfl⟩ | ⟨i, p, hi, -, hup⟩
      · cases hr
      · exact ⟨stays hi, fun _ => ⟨_, get?_set_self hi _, rfl⟩⟩
      · obtain ⟨above, -⟩ := ih hup
        refine ⟨fun hj hd => ?_, fun _ => above (get?_set_self hi _) rfl⟩
        obtain ⟨j', hj', hd'⟩ := stays hi hj hd
        exact above hj' hd'

theorem Sound.root_dirty (s : o'.Sound) (hm : exec (Edit.markDirty h) o = (.ok (), o')) :
    ∃ r, o'.get? root = some r ∧ r.dirty = true := by
  obtain ⟨r, hr, -⟩ := s.tree.root
  have hsize : o.slots.size ≠ 0 := by
    intro hzero
    have hup : exec (Edit.markUp o.slots.size h) o = (.ok (), o') := hm
    rw [hzero] at hup
    obtain ⟨-, rfl⟩ := Prod.mk.inj hup
    have := index_lt_of_get? hr
    omega
  obtain ⟨j, hj, hd⟩ := (exec_markUp_dirty hm).2 hsize
  exact ⟨r, hr, s.closed.of_below (s.tree.below_root s.attached hj) hr hj hd⟩

theorem marks_of_edit {c : EditCall} {r : Except Failure Unit} (hx : exec c.edit o = (r, o'))
    (hr : Accepted r) : o' = o ∨ ∃ h o₁, exec (Edit.markDirty h) o₁ = (.ok (), o') := by
  cases c with
  | add parent kind name =>
      obtain ⟨_, hx⟩ := exec_of_accepted hx hr
      obtain ⟨h, o₁, hadd, hpure⟩ := exec_bind_eq_ok.mp hx
      obtain ⟨-, rfl⟩ := Prod.mk.inj hpure
      obtain ⟨o₂, index, o₃, -, -, hmark⟩ := Edit.exec_add_eq_ok hadd
      exact Or.inr ⟨_, _, hmark⟩
  | insertNew parent kind name below index =>
      obtain ⟨_, hx⟩ := exec_of_accepted hx hr
      obtain ⟨h, o₁, o₂, -, -, hmark⟩ := Edit.exec_insertNew_eq_ok hx
      exact Or.inr ⟨_, _, hmark⟩
  | setContents item contents =>
      cases hi : o.get? item with
      | none =>
          have hread : exec ((Edit.read (·.item item)).adapt Failure.violation) o =
              (.error (.violation (.missing item)), o) := by
            rw [exec_adapt, Edit.exec_read, Outline.item, hi]
            rfl
          have hfail := hx.symm.trans (exec_bind_of_error hread)
          exact absurd (Prod.mk.inj hfail).1 (hr _)
      | some i =>
          have hset := hx.symm.trans (exec_setContents hi contents)
          split at hset
          · obtain ⟨_, hmark⟩ := exec_of_accepted hset.symm hr
            exact Or.inr ⟨_, _, hmark⟩
          · exact Or.inl (Prod.mk.inj hset).2
  | markDirty item =>
      obtain ⟨_, hx⟩ := exec_of_accepted hx hr
      exact Or.inr ⟨_, _, hx⟩
  | rename item name =>
      obtain ⟨_, hx⟩ := exec_of_accepted hx hr
      obtain ⟨i, o₁, k, -, -, -, -, hmark⟩ := Edit.exec_rename_eq_ok hx
      exact Or.inr ⟨_, _, hmark⟩
  | remove item =>
      obtain ⟨_, hx⟩ := exec_of_accepted hx hr
      obtain ⟨p, o₁, o₂, -, -, hmark⟩ := Edit.exec_remove_eq_ok hx
      exact Or.inr ⟨_, _, hmark⟩
  | move parent start stop =>
      obtain ⟨_, hx⟩ := exec_of_accepted hx hr
      obtain ⟨o₁, -, hmark⟩ := Edit.exec_move_eq_ok hx
      exact Or.inr ⟨_, _, hmark⟩
  | reorder parent order =>
      obtain ⟨_, hx⟩ := exec_of_accepted hx hr
      obtain ⟨o₁, -, hmark⟩ := Edit.exec_reorder_eq_ok hx
      exact Or.inr ⟨_, _, hmark⟩

/-- An accepted edit keeps an outline sound. -/
theorem Sound.edit {c : EditCall} {r : Except Failure Unit} (s : o.Sound)
    (hlive : ∀ x ∈ c.items, o.Reachable x) (hx : exec c.edit o = (r, o')) (hr : Accepted r) :
    o'.Sound := by
  cases c with
  | add parent kind name =>
      obtain ⟨_, hx⟩ := exec_of_accepted hx hr
      obtain ⟨h, o₁, hadd, hpure⟩ := exec_bind_eq_ok.mp hx
      obtain ⟨-, rfl⟩ := Prod.mk.inj hpure
      exact s.add hadd
  | insertNew parent kind name below index =>
      obtain ⟨_, hx⟩ := exec_of_accepted hx hr
      exact s.insertNew hx
  | setContents item contents =>
      obtain ⟨i, hi⟩ := s.tree.live_of_reachable (hlive item List.mem_cons_self)
      exact s.setContents hi hx
  | markDirty item =>
      obtain ⟨i, hi⟩ := s.tree.live_of_reachable (hlive item List.mem_cons_self)
      obtain ⟨_, hx⟩ := exec_of_accepted hx hr
      exact s.markDirty hi hx
  | rename item name =>
      obtain ⟨_, hx⟩ := exec_of_accepted hx hr
      exact s.rename hx
  | remove item =>
      obtain ⟨_, hx⟩ := exec_of_accepted hx hr
      exact s.remove hx
  | move parent start stop =>
      obtain ⟨_, hx⟩ := exec_of_accepted hx hr
      exact s.move hx
  | reorder parent order =>
      obtain ⟨_, hx⟩ := exec_of_accepted hx hr
      exact s.reorder hx

/-! ### Images and saves -/

theorem Sound.kept (s : o.Sound) (k : Kept P o o') (d : o'.DirtyClosed) : o'.Sound :=
  ⟨k.cleared.tree.wellFormed s.tree, k.cleared.tree.attached s.attached, d, k.coherent⟩

theorem WellFormed.find?_of_data (w : o.WellFormed) (a : o.Attached)
    (ht : o.plainImage Outline.root = .ok t.plain) (hi : o.get? h = some i) (hk : i.kind = .file)
    {c : Bytes} (hc : o.data h = some c) :
    (t.find? (o.diskPath h)).bind Tree.contents? = some c := by
  have hpath : i.kind.namesPath = true := by rw [hk]; rfl
  have hrecord : o.record h = (o.diskPath h, some c) := by
    rw [record, isFile_eq hi, hk, hc]
    rfl
  obtain ⟨u, hu, huc⟩ := (w.find?_root a ht (w.diskPath_ne_nil a hi hpath)).mpr
    ⟨h, w.mem_onDisk_root a hi hpath, hrecord⟩
  rw [hu, Option.bind_some, huc]

/-- Files keep their data when the image of the root becomes the document, and lie where they lay. -/
theorem Sound.data_commit (s : o.Sound) (ht : o.plainImage root = .ok t.plain)
    (hi : o.get? h = some i) (hk : i.kind = .file) {c : Bytes} (hc : o.data h = some c) :
    ({ o with document := some t } : Outline).data h = some c ∧
      ({ o with document := some t } : Outline).diskPath h = o.diskPath h := by
  have ag : ∀ {β : Type} (f : Item → β), AgreeOn f o { o with document := some t } :=
    fun _ => ⟨rfl, rfl, fun _ => rfl⟩
  obtain ⟨l, hl⟩ := s.tree.exists_line s.attached hi
  have hpath := s.tree.diskPath_of_stem (s.tree.congr (ag _)) hl fun x _ => (ag _).get x
  have hfound := s.tree.find?_of_data s.attached ht hi hk hc
  have hget : ({ o with document := some t } : Outline).get? h = some i := hi
  refine ⟨?_, hpath⟩
  unfold Outline.data at hc ⊢
  rw [hget, Option.bind_some, hpath]
  rw [hi, Option.bind_some] at hc
  cases hcontents : i.contents with
  | none => exact hfound
  | some d =>
      rw [hcontents] at hc
      exact hc

/-- Making the image of the root the document changes no images that could be made. -/
theorem Sound.plainImage_commit {u : FileTree} (s : o.Sound) (ht : o.plainImage root = .ok t.plain)
    (hi : o.get? h = some i) (hu : o.plainImage h = .ok u) :
    ({ o with document := some t } : Outline).plainImage h = .ok u := by
  have ag : ∀ {β : Type} (f : Item → β), AgreeOn f o { o with document := some t } :=
    fun _ => ⟨rfl, rfl, fun _ => rfl⟩
  refine plainImage_keeps s.tree (s.tree.congr (ag _)) hi (fun z hz => ?_) hu
  obtain ⟨k, hk⟩ := hz.live hi
  exact ⟨k, k, hk, hk, rfl, rfl, rfl, fun hfile c hc => (s.data_commit ht hk hfile hc).1⟩

/-- An outline stays sound when the image of its root becomes the document. -/
theorem Sound.commit (s : o.Sound) (ht : o.plainImage root = .ok t.plain) :
    ({ o with document := some t } : Outline).Sound := by
  have ag : ∀ {β : Type} (f : Item → β), AgreeOn f o { o with document := some t } :=
    fun _ => ⟨rfl, rfl, fun _ => rfl⟩
  exact ⟨s.tree.congr (ag _), s.attached.congr (ag _), s.closed.congr (ag _),
    fun {x i u} hi hclean hcache => s.plainImage_commit ht hi (s.coherent hi hclean hcache)⟩

end Outline

namespace Workspace

open Outline

variable {W W' W'' : Workspace} {h : Handle} {i : Item} {held : List SharedTree} {t : SharedTree}

/-- Asking a sound outline for an image. -/
theorem exec_image {r : Except Failure SharedTree} (s : W.outline.Sound)
    (hi : W.outline.get? h = some i) (hx : exec (image held h) W = (r, W')) :
    r.map Tree.plain = W.outline.plainImage h ∧ Kept (fun _ => False) W.outline W'.outline := by
  unfold image at hx
  rw [exec_bind_of_ok (exec_get W)] at hx
  exact exec_imageAt s.tree s.attached ((s.tree.fits hi).mono (Nat.le_succ _)) (.refl _)
    s.coherent hx

/-- Refreshing an item of a sound outline. -/
theorem exec_refresh {r : Except Failure (Option SharedTree)} (s : W.outline.Sound)
    (hi : W.outline.get? h = some i) (hx : exec (refresh held h) W = (r, W')) :
    Refreshed W.outline h W W' r := by
  unfold refresh at hx
  rw [exec_bind_of_ok (exec_get W)] at hx
  exact exec_refreshAt s.tree s.attached ((s.tree.fits hi).mono (Nat.le_succ _)) (.refl _)
    s.coherent s.closed hx

theorem refresh_root {W' : Workspace} (s : W.outline.Sound)
    (hx : exec (refresh held Outline.root) W = (.ok (some t), W')) :
    W'.outline.Sound ∧ W'.outline.plainImage Outline.root = .ok t.plain ∧
      ∀ {x j}, W'.outline.get? x = some j → j.dirty = false := by
  obtain ⟨i, hi, -⟩ := s.tree.root
  have R := exec_refresh s hi hx
  have st := R.kept.cleared.tree
  have s' := s.kept R.kept R.closed
  refine ⟨s', ?_, fun {x j} hj => ?_⟩
  · rw [st.plainImage s.tree s.attached hi]
    cases hd : i.dirty with
    | false => cases (R.idle hi hd).1
    | true =>
        have himage := R.image hi hd
        cases hp : W.outline.plainImage Outline.root with
        | error e =>
            rw [hp] at himage
            cases himage
        | ok u =>
            rw [hp] at himage
            exact congrArg Except.ok (Option.some.inj (Except.ok.inj himage)).symm
  · obtain ⟨k, hk, -⟩ := st.agree.symm.get?_eq_some hj
    exact R.clean rfl (s.tree.below_root s.attached hk) hj

/-- When a refresh of the root gives no tree, the root was clean and nothing happens, or making its
image fails and it stays dirty. -/
theorem refresh_root_none {r : Except Failure (Option SharedTree)} (s : W.outline.Sound)
    (hx : exec (refresh held Outline.root) W = (r, W')) (hr : ∀ t, r ≠ .ok (some t)) :
    (r = .ok none ∧ W' = W ∧ ∃ i, W.outline.get? Outline.root = some i ∧ i.dirty = false) ∨
      ∃ e, r = .error e ∧ ∃ j, W'.outline.get? Outline.root = some j ∧ j.dirty = true := by
  obtain ⟨i, hi, -⟩ := s.tree.root
  have R := exec_refresh s hi hx
  cases hd : i.dirty with
  | false =>
      obtain ⟨rfl, rfl⟩ := R.idle hi hd
      exact Or.inl ⟨rfl, rfl, i, hi, hd⟩
  | true =>
      obtain ⟨j, hj, -⟩ := R.kept.cleared.tree.agree.get?_eq_some hi
      have himage := R.image hi hd
      cases r with
      | error e => exact Or.inr ⟨e, rfl, j, hj, R.failed rfl hj⟩
      | ok b =>
          cases b with
          | some t => exact absurd rfl (hr t)
          | none => cases hp : W.outline.plainImage Outline.root <;> rw [hp] at himage <;> cases himage

theorem exec_commit (t : SharedTree) (W : Workspace) :
    ∃ notices, exec (commit t) W =
      (.ok (), { W with outline := { W.outline with document := some t }, notices }) :=
  ⟨_, rfl⟩

end Workspace

/-! ### Runs -/

theorem Outline.Start.sound {o : Outline} (st : o.Start) : o.Sound := by
  cases st with
  | new package document => exact (Outline.fresh_new package document).sound
  | build hb => exact (Description.fresh_of_build hb).sound

theorem Outline.Sound.takes {W W' : Workspace} {s : EditStep} (so : W.outline.Sound)
    (hs : s.Takes W W') : W'.outline.Sound := by
  cases hs with
  | edit hlive hx hr => exact so.edit hlive (Workspace.exec_of_edit hx) hr
  | image hreach hx =>
      obtain ⟨i, hi⟩ := so.tree.live_of_reachable hreach
      have k := (Workspace.exec_image so hi hx).2
      exact so.kept k (k.cleared.dirtyClosed so.closed)
  | refresh hreach hx =>
      obtain ⟨i, hi⟩ := so.tree.live_of_reachable hreach
      have R := Workspace.exec_refresh so hi hx
      exact so.kept R.kept R.closed
  | save hx hcommit =>
      obtain ⟨so', ht, -⟩ := Workspace.refresh_root so hx
      obtain ⟨notices, hrun⟩ := Workspace.exec_commit _ _
      rw [hrun] at hcommit
      obtain ⟨-, rfl⟩ := Prod.mk.inj hcommit
      exact so'.commit ht

/-- All outlines on an editing run are sound. -/
theorem EditRun.sound {W : Workspace} (run : EditRun W) : W.outline.Sound := by
  induction run with
  | start st => exact st.sound
  | step _ hs ih => exact ih.takes hs

/-! ### Playing steps -/

/-- The workspace after a step; nothing when the step is about an item that is not there or does not
end well. -/
def EditStep.next? (W : Workspace) : EditStep → Option Workspace
  | edit c =>
    if c.items.all W.outline.contains then
      match exec c.edit W.outline with
      | (.ok (), outline) => some { W with outline }
      | (.error _, _) => none
    else none
  | image held item =>
    if W.outline.contains item then some (exec (Workspace.image held item) W).2 else none
  | refresh held item =>
    if W.outline.contains item then some (exec (Workspace.refresh held item) W).2 else none
  | save held =>
    match exec (Workspace.refresh held Outline.root) W with
    | (.ok (some t), W') => some (exec (Workspace.commit t) W').2
    | _ => none

/-- The workspace after some steps one after another. -/
def Workspace.play (W : Workspace) (steps : List EditStep) : Option Workspace :=
  steps.foldlM EditStep.next? W

theorem Outline.Sound.reachable {o : Outline} {h : Handle} (so : o.Sound)
    (hc : o.contains h = true) : o.Reachable h := by
  obtain ⟨i, hi⟩ := Option.isSome_iff_exists.mp hc
  exact so.tree.reachable so.attached hi

theorem Outline.Sound.takes_of_next? {W W' : Workspace} {s : EditStep} (so : W.outline.Sound)
    (hs : s.next? W = some W') : s.Takes W W' := by
  cases s with
  | edit c =>
      rw [EditStep.next?] at hs
      split at hs
      · rename_i hlive
        split at hs
        · rename_i o' hx
          obtain rfl := Option.some.inj hs
          refine .edit (r := .ok ()) (fun x hmem => ?_) ?_ fun v hv => by cases hv
          · exact so.reachable (List.all_eq_true.mp hlive x hmem)
          · rw [Workspace.exec_edit, hx]
        · cases hs
      · cases hs
  | image held item =>
      rw [EditStep.next?] at hs
      split at hs
      · rename_i hlive
        obtain rfl := Option.some.inj hs
        exact .image (so.reachable hlive) rfl
      · cases hs
  | refresh held item =>
      rw [EditStep.next?] at hs
      split at hs
      · rename_i hlive
        obtain rfl := Option.some.inj hs
        exact .refresh (so.reachable hlive) rfl
      · cases hs
  | save held =>
      rw [EditStep.next?] at hs
      split at hs
      · rename_i t W₁ hx
        obtain rfl := Option.some.inj hs
        exact .save hx rfl
      · cases hs

/-- A run of any kind goes on with steps that are played, when it may take each of them. -/
theorem Workspace.play_induction {W W' : Workspace} {steps : List EditStep}
    {Run : Workspace → Prop} (so : ∀ {V}, Run V → V.outline.Sound)
    (next : ∀ {V V' s}, s ∈ steps → Run V → s.Takes V V' → Run V') (run : Run W)
    (hp : W.play steps = some W') : Run W' := by
  unfold Workspace.play at hp
  induction steps generalizing W with
  | nil =>
      obtain rfl := Option.some.inj hp
      exact run
  | cons s steps ih =>
      rw [List.foldlM_cons] at hp
      obtain ⟨W₁, hs, hrest⟩ := Option.bind_eq_some_iff.mp hp
      exact ih (fun hmem => next (List.mem_cons_of_mem _ hmem))
        (next List.mem_cons_self run ((so run).takes_of_next? hs)) hrest

/-- Steps that end well can go on from any workspace of an editing run. -/
theorem EditRun.play {W W' : Workspace} {steps : List EditStep} (run : EditRun W)
    (hp : W.play steps = some W') : EditRun W' :=
  Workspace.play_induction EditRun.sound (fun _ run hs => run.step hs) run hp

/-- Steps on a new outline that can be played are a run, and where it ends, what was checked holds. -/
theorem EditRun.exists_of_play (document : Option SharedTree) (next : ObjectId)
    (steps : List EditStep) (check : Workspace → Bool)
    (h : (Workspace.play ⟨Outline.new "P" document, next, []⟩ steps).any check = true) :
    ∃ W, EditRun W ∧ check W = true := by
  obtain ⟨W, hplay, hW⟩ := (Option.any_eq_true ..).mp h
  exact ⟨W, (EditRun.start (.new "P" document)).play hplay, hW⟩

/-! ### Coherence of memory -/

/-- After an editing run the image of an item, and also a new image of it when it is dirty, is what
the tree, the contents and the document alone make of it, or the same error. -/
theorem EditRun.image_eq_plainImage {W : Workspace} {h : Handle} (run : EditRun W) (hr : W.outline.Reachable h)
    (held : List SharedTree) :
    (exec (Workspace.image held h) W).1.map Tree.plain = W.outline.plainImage h ∧
      ∀ i, W.outline.get? h = some i → i.dirty = true →
        (exec (Workspace.refresh held h) W).1.map (Option.map Tree.plain) =
          (W.outline.plainImage h).map some := by
  obtain ⟨i, hi⟩ := run.sound.tree.live_of_reachable hr
  refine ⟨(Workspace.exec_image run.sound hi rfl).1, fun j hj hd => ?_⟩
  exact (Workspace.exec_refresh run.sound hi rfl).image hj hd

/-- A folder that was renamed, and a file in it that was changed, after their images were made. -/
theorem EditRun.image_of_renamed_folder : ∃ W : Workspace, EditRun W ∧
    (W.outline.plainImage Outline.root).toOption.any
      (·.same (Tree.dir () [("e", .dir () [("a", .file () [0x32])])])) = true ∧
    (exec (Workspace.image [] Outline.root) W).1.map Tree.plain =
      W.outline.plainImage Outline.root ∧
    (exec (Workspace.refresh [] Outline.root) W).1.map (Option.map Tree.plain) =
      (W.outline.plainImage Outline.root).map some := by
  obtain ⟨W, run, hW⟩ := EditRun.exists_of_play none 0
    [.edit (.add Outline.root .group "Package"),
      .edit (.add ⟨1, 0⟩ .folder "d"), .edit (.add ⟨2, 0⟩ .file "a"),
      .edit (.setContents ⟨3, 0⟩ [0x31]), .refresh [] Outline.root, .edit (.rename ⟨2, 0⟩ "e"),
      .edit (.setContents ⟨3, 0⟩ [0x32])]
    (fun W =>
      (W.outline.get? Outline.root).any (·.dirty) &&
      (W.outline.plainImage Outline.root).toOption.any
        (·.same (Tree.dir () [("e", .dir () [("a", .file () [0x32])])])))
    (by decide +kernel)
  obtain ⟨hdirty, hshows⟩ := (Bool.and_eq_true ..).mp hW
  obtain ⟨i, hi, hd⟩ := (Option.any_eq_true ..).mp hdirty
  obtain ⟨himage, hrefresh⟩ := run.image_eq_plainImage .root []
  exact ⟨W, run, hshows, himage, hrefresh i hi hd⟩

end PackageOutline
