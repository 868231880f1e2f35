import Mathlib.Logic.Relation
import PackageOutline.Proofs.Outline.Document
import PackageOutline.Proofs.Outline.Reusing
import PackageOutline.Proofs.Outline.Showing
import PackageOutline.Proofs.Tree.InsertionOrder

/-! # What two saves share

A session (`Session`) is a workspace together with the trees that callers hold.  Images and new images
that it gives are held until they are let go.

* `Session.Run.sound`: the outline is sound and memory intact all along.
* `Session.Saved`: after a save the document consists of the objects that items remember.
* `Session.Run.shared_between_saves`: a folder or file that was not marked between two saves is the
  same object in both documents. -/

namespace PackageOutline

open PackageOutline.Tree (Part Alive Identified)

theorem Outline.Start.cache {o : Outline} {x : Handle} {i : Item} (st : o.Start)
    (hi : o.get? x = some i) : i.cache = none := by
  cases st with
  | new package document => exact ((fresh_new package document).idle hi).2.1
  | build hb => exact ((Description.fresh_of_build hb).idle hi).2.1

/-- A tree has, at the path of an item, the object that the item remembers, or, when the item is
transparent, that of an item that it is within. -/
def Outline.Seated (o : Outline) (t : SharedTree) (x : Handle) : Prop :=
  ∃ d D, o.Remembers d D ∧ t.at? (o.diskPath x) = some D ∧
    (d = x ∨ o.Within d x ∧ ∃ k, o.get? x = some k ∧ k.kind.isTransparent = true)

namespace Workspace

open Outline

variable {W W' : Workspace} {h x : Handle} {i : Item} {held : List SharedTree} {t : SharedTree}

/-! ### Images and saves -/

theorem document_mem (o : Outline) (held : List SharedTree) :
    ∀ t ∈ o.document, t ∈ o.document.toList ++ held :=
  fun _ ht => List.mem_append_left _ (Option.mem_toList.mpr ht)

theorem exec_image_grows {r : Except Failure SharedTree} (s : W.outline.Sound)
    (I : W.Intact (W.outline.document.toList ++ held)) (hi : W.outline.get? h = some i)
    (hx : exec (image held h) W = (r, W')) :
    Grows (W.outline.Below h) (W.outline.document.toList ++ held) W
      (r.toOption.toList ++ (W.outline.document.toList ++ held)) W' := by
  unfold image at hx
  rw [exec_bind_of_ok (exec_get W)] at hx
  have start : W.Intact ([] ++ (W.outline.document.toList ++ held)) := I
  have A := exec_imageAt_grows s.tree s.attached ((s.tree.fits hi).mono (Nat.le_succ _)) (.refl _)
    s.coherent s.closed (document_mem _ _) start hx
  exact A.grows

theorem exec_refresh_renewed {r : Except Failure (Option SharedTree)} (s : W.outline.Sound)
    (I : W.Intact (W.outline.document.toList ++ held)) (hi : W.outline.get? h = some i)
    (hx : exec (refresh held h) W = (r, W')) :
    Renewed W.outline h (W.outline.document.toList ++ held) W r W' := by
  unfold refresh at hx
  rw [exec_bind_of_ok (exec_get W)] at hx
  have start : W.Intact ([] ++ (W.outline.document.toList ++ held)) := I
  have R := exec_refreshAt_grows s.tree s.attached ((s.tree.fits hi).mono (Nat.le_succ _)) (.refl _)
    s.coherent s.closed (document_mem _ _) start hx
  exact R

/-- Which tree is the document plays no part in memory, once it is held. -/
theorem Intact.commit (I : W.Intact held) (t : SharedTree) (notices : List Notice) :
    ({ W with outline := { W.outline with document := some t }, notices } : Workspace).Intact
      held := by
  have ag : AgreeOn Item.frame { W.outline with document := some t } W.outline :=
    ⟨rfl, rfl, fun _ => rfl⟩
  exact ⟨I.objects, fun hr ha x j hw hj hpath => I.reuses hr ha (hw.congr ag) hj hpath⟩

/-- When all is clean, a tree that the root remembers has at the path of every item the object that the
item remembers, or, when the item is transparent, that of an item that it is within. -/
theorem Intact.seated_of_clean (I : W.Intact held) (s : W.outline.Sound)
    (hclean : ∀ {x i}, W.outline.get? x = some i → i.dirty = false)
    (hr : W.outline.Remembers root t) (ha : Alive held t) (named : t.WellNamed) :
    ∀ x i, W.outline.get? x = some i → W.outline.Seated t x := by
  -- from parents to children: `hw` says where the child is to be looked for
  refine s.tree.parent_induction fun x i hi ih => ?_
  by_cases hroot : x = Outline.root
  · subst hroot
    exact ⟨root, t, hr, by rw [s.tree.diskPath_root]; rfl, Or.inl rfl⟩
  obtain ⟨p, j, hp, hj, hmem⟩ := s.attached hi hroot
  obtain ⟨l, hl⟩ := s.tree.exists_line s.attached hj
  obtain ⟨d, D, hD, hat, hd⟩ := ih p j hp hj
  have hw : W.outline.Within d x := by
    rcases hd with rfl | ⟨hw, k, hk, ht⟩
    · exact .child hj hmem
    · rw [hj] at hk
      exact hw.tail hj (Option.some.inj hk ▸ ht) hmem
  have hpath := s.tree.diskPath_child hl hi hp
  cases hk : i.kind.namesPath with
  | false =>
      have hopaque : i.kind ≠ .package := fun hpackage => by
        have hadmits := s.tree.placed hi hp hj
        rw [hpackage, Kind.admits_package] at hadmits
        cases hadmits
      have ht : i.kind.isTransparent = true := by
        rw [Kind.isTransparent_or_namesPath hopaque, hk]
        rfl
      rw [Item.pathPart, hk, if_neg Bool.false_ne_true, List.append_nil] at hpath
      exact ⟨d, D, hD, hpath ▸ hat, Or.inr ⟨hw, i, hi, ht⟩⟩
  | true =>
      obtain ⟨u, hu, hentry⟩ := I.reuses hD (ha.part (Tree.part_of_at? hat)) hw hi hk
      refine ⟨x, u, ⟨i, hi, hclean hi, hu⟩, ?_, Or.inl rfl⟩
      rw [hpath, Item.pathPart, hk, if_pos rfl, Tree.at?_append, hat]
      show (D.entry? i.name).bind _ = some u
      rw [(named.at? hat).entry?_of_mem hentry]
      rfl

theorem Intact.find?_of_clean (I : W.Intact held) (s : W.outline.Sound)
    (hclean : ∀ {x i}, W.outline.get? x = some i → i.dirty = false)
    (hr : W.outline.Remembers root t) (ha : Alive held t) (named : t.WellNamed)
    (hi : W.outline.get? x = some i) (hpath : i.kind.namesPath = true) :
    ∃ u, W.outline.Remembers x u ∧ t.find? (W.outline.diskPath x) = some u := by
  obtain ⟨d, D, hD, hat, hd⟩ := I.seated_of_clean s hclean hr ha named x i hi
  rcases hd with rfl | ⟨-, k, hk, ht⟩
  · exact ⟨D, hD, (Tree.find?_eq_at? (s.tree.diskPath_ne_nil s.attached hi hpath) t).trans hat⟩
  · rw [hi] at hk
    rw [← Option.some.inj hk, Kind.isTransparent_of_namesPath hpath] at ht
    cases ht

end Workspace

/-! ### Sessions -/

/-- A workspace and the trees that callers hold. -/
structure Session where
  workspace : Workspace
  held : List SharedTree

namespace Session

open Outline

/-- The outline that is worked on. -/
abbrev outline (S : Session) : Outline := S.workspace.outline

/-- All trees that are held. -/
def trees (S : Session) : List SharedTree := S.outline.document.toList ++ S.held

/-- A step of a session other than a save.  Callers hold what they are given until they let it go, and
may take parts of what is held. -/
inductive Step : Session → Session → Prop
  | edit {W W' : Workspace} {held : List SharedTree} {r : Except Failure Unit} {c : EditCall} :
      (∀ x ∈ c.items, W.outline.Reachable x) → exec (Workspace.edit c.edit) W = (r, W') →
      Accepted r → Step ⟨W, held⟩ ⟨W', held⟩
  | image {W W' : Workspace} {held : List SharedTree} {h : Handle}
      {r : Except Failure SharedTree} : W.outline.Reachable h →
      exec (Workspace.image held h) W = (r, W') → Step ⟨W, held⟩ ⟨W', r.toOption.toList ++ held⟩
  | refresh {W W' : Workspace} {held : List SharedTree} {h : Handle}
      {r : Except Failure (Option SharedTree)} : W.outline.Reachable h →
      exec (Workspace.refresh held h) W = (r, W') →
      Step ⟨W, held⟩ ⟨W', r.toOption.join.toList ++ held⟩
  | hold {S : Session} {held : List SharedTree} :
      (∀ t ∈ held, Alive S.trees t) → Step S ⟨S.workspace, held⟩

/-- A save that ends well: the root is refreshed, and the tree that it gives becomes the document. -/
inductive Saves : Session → Session → Prop
  | save {W W' W'' : Workspace} {held : List SharedTree} {t : SharedTree}
      {r : Except Failure Unit} :
      exec (Workspace.refresh held Outline.root) W = (.ok (some t), W') →
      exec (Workspace.commit t) W' = (r, W'') → Saves ⟨W, held⟩ ⟨W'', held⟩

/-- A step after which an item is not marked. -/
def Spares (x : Handle) (S S' : Session) : Prop :=
  S.Step S' ∧ ∀ i, S'.outline.get? x = some i → i.dirty = false

/-- The sessions that there are: at the start the trees that are held consist of objects. -/
inductive Run : Session → Prop
  | start {S : Session} : S.outline.Start → Identified S.workspace.next (· ∈ S.trees) → Run S
  | step {S S' : Session} : Run S → S.Step S' → Run S'
  | save {S S' : Session} : Run S → S.Saves S' → Run S'

variable {S S' S₁ S₂ S₃ : Session} {x : Handle} {i : Item} {X : SharedTree}

/-! ### Memory along a session -/

/-- The outline is sound, and memory is intact with the trees that are held. -/
structure Sound (S : Session) : Prop where
  outline : S.outline.Sound
  memory : S.workspace.Intact S.trees

/-- What a step or a save keeps: an item that is not marked was there before and remembers what it
remembered, as long as that is held. -/
structure Carries (S S' : Session) : Prop where
  sound : S'.Sound
  spared : ∀ {x i'}, S'.outline.get? x = some i' → i'.dirty = false →
    ∃ i, S.outline.get? x = some i ∧ i.kind = i'.kind ∧
      ∀ {X}, S.outline.Remembers x X → Alive S.trees X → S'.outline.Remembers x X

theorem sound_of_start (st : S.outline.Start) (d : Identified S.workspace.next (· ∈ S.trees)) :
    S.Sound := by
  have blank : ∀ {x t}, ¬ S.outline.Remembers x t := by
    rintro x t ⟨i, hi, -, hc⟩
    rw [st.cache hi] at hc
    cases hc
  refine ⟨st.sound, d.mono ?_, fun hr => absurd hr blank⟩
  rintro t (ht | ⟨x, hr⟩)
  · exact ⟨t, ht, .self⟩
  · exact absurd hr blank

theorem spared_of_lasts {o o' : Outline} {held : List SharedTree} {i' : Item} (st : SameTree o o')
    (lasts : Lasts held o o') (hi : o'.get? x = some i') :
    ∃ i, o.get? x = some i ∧ i.kind = i'.kind ∧
      ∀ {X}, o.Remembers x X → Alive held X → o'.Remembers x X := by
  obtain ⟨i, hi₀, hb⟩ := st.agree.symm.get?_eq_some hi
  exact ⟨i, hi₀, (Item.frame_eq_iff.mp (Item.bare_eq_iff.mp hb).1).1, fun hr ha => lasts hr ha⟩

/-- Off the line that an edit marks, memory is as it was. -/
theorem carries_of_edit {W W' : Workspace} {held : List SharedTree} {r : Except Failure Unit}
    {c : EditCall} (so : Sound ⟨W, held⟩) (hlive : ∀ x ∈ c.items, W.outline.Reachable x)
    (hx : exec (Workspace.edit c.edit) W = (r, W')) (hr : Accepted r) :
    Carries ⟨W, held⟩ ⟨W', held⟩ ∧ W'.outline.document = W.outline.document := by
  have hrun := Workspace.exec_of_edit hx
  have so' := so.outline.edit hlive hrun hr
  have hdoc : W'.outline.document = W.outline.document := Edit.call_document c hrun
  have htrees : trees ⟨W', held⟩ = trees ⟨W, held⟩ := congrArg (·.toList ++ held) hdoc
  have hW' : W' = { W with outline := W'.outline } := by
    rw [Workspace.exec_edit] at hx
    rw [← (Prod.mk.inj hx).2]
  cases so.outline.outcome hlive hrun hr with
  | refused hc hi hk hresult ho =>
      obtain rfl : W' = W := by rw [hW', ho]
      exact ⟨⟨so, fun hi _ => ⟨_, hi, rfl, fun hr _ => hr⟩⟩, rfl⟩
  | @done l hok marks t =>
      have I' : W'.Intact (trees ⟨W, held⟩) := hW' ▸ so.memory.edit t so'.tree
      refine ⟨⟨⟨so', htrees ▸ I'⟩, fun {x j} hj hclean => ?_⟩, hdoc⟩
      have hx : x ∉ l := fun hmem => by
        obtain ⟨k, hk, hdirty⟩ := t.on hmem
        rw [show W'.outline.get? x = some j from hj] at hk
        rw [← Option.some.inj hk, hclean] at hdirty
        cases hdirty
      obtain ⟨-, i, hi, hhusk⟩ := t.old hx hj
      obtain ⟨hf, hc, -⟩ := Item.husk_eq_iff.mp hhusk
      exact ⟨i, hi, (Item.frame_eq_iff.mp hf).1, fun hr _ => ⟨j, hj, hclean, hc ▸ hr.cache hi⟩⟩

theorem carries_of_grows {W W' : Workspace} {held given : List SharedTree} {P : Handle → Prop}
    (so' : W'.outline.Sound) (st : SameTree W.outline W'.outline)
    (g : Workspace.Grows P (trees ⟨W, held⟩) W (given ++ trees ⟨W, held⟩) W') :
    Carries ⟨W, held⟩ ⟨W', given ++ held⟩ := by
  refine ⟨⟨so', g.intact.subset fun t ht => ?_⟩, fun hi _ => spared_of_lasts st g.lasts hi⟩
  unfold trees at ht ⊢
  rw [show outline ⟨W', given ++ held⟩ = W'.outline from rfl, st.document] at ht
  simp only [List.mem_append] at ht ⊢
  tauto

theorem Step.carries (s : S.Step S') (so : S.Sound) :
    S.Carries S' ∧ S'.outline.document = S.outline.document := by
  cases s with
  | edit hlive hx hr => exact carries_of_edit so hlive hx hr
  | image hreach hx =>
      obtain ⟨so, I⟩ := so
      obtain ⟨i, hi⟩ := so.tree.live_of_reachable hreach
      have k := (Workspace.exec_image so hi hx).2
      exact ⟨carries_of_grows (so.kept k (k.cleared.dirtyClosed so.closed)) k.cleared.tree
        (Workspace.exec_image_grows so I hi hx), k.cleared.tree.document⟩
  | refresh hreach hx =>
      obtain ⟨so, I⟩ := so
      obtain ⟨i, hi⟩ := so.tree.live_of_reachable hreach
      have R := Workspace.exec_refresh so hi hx
      exact ⟨carries_of_grows (so.kept R.kept R.closed) R.kept.cleared.tree
        (Workspace.exec_refresh_renewed so I hi hx).grows, R.kept.cleared.tree.document⟩
  | @hold _ held hheld =>
      have hall : ∀ t ∈ trees ⟨S.workspace, held⟩, Alive S.trees t := fun t ht =>
        (List.mem_append.mp ht).elim (fun ht => Tree.alive_of_mem (List.mem_append_left _ ht))
          (hheld t)
      exact ⟨⟨⟨so.outline, so.memory.mono hall⟩, fun hi _ => ⟨_, hi, rfl, fun hr _ => hr⟩⟩, rfl⟩

/-- All is clean, and the document has the objects that the folders and files remember. -/
structure Saved (S : Session) : Prop where
  clean : ∀ {x i}, S.outline.get? x = some i → i.dirty = false
  document : ∃ t, S.outline.document = some t ∧
    ∀ {x i}, S.outline.get? x = some i → i.kind.namesPath = true →
      ∃ u, S.outline.Remembers x u ∧ t.find? (S.outline.diskPath x) = some u

theorem Saves.carries (s : S.Saves S') (so : S.Sound) : S.Carries S' ∧ S'.Saved := by
  obtain ⟨so, I⟩ := so
  cases s with
  | @save W W' W'' held t r hx hcommit =>
      obtain ⟨notices, hrun⟩ := Workspace.exec_commit t W'
      rw [hrun] at hcommit
      obtain ⟨-, rfl⟩ := Prod.mk.inj hcommit
      obtain ⟨so', himage, hclean⟩ := Workspace.refresh_root so hx
      obtain ⟨i, hi, -⟩ := so.tree.root
      have R := Workspace.exec_refresh so hi hx
      have N := Workspace.exec_refresh_renewed so I hi hx
      have C := carries_of_grows so' R.kept.cleared.tree N.grows
      have I' : W'.Intact (t :: held) := C.sound.memory.subset (List.subset_append_right _ _)
      have so'' := so'.commit himage
      have named : t.WellNamed :=
        (Tree.wellNamed_map_iff _ t).mp (so'.tree.listing_root so'.attached himage).1
      refine ⟨⟨⟨so'', I'.commit t notices⟩, C.spared⟩, hclean, t, rfl, fun {x i} hi hpath => ?_⟩
      exact (I'.commit t notices).find?_of_clean so'' hclean (N.remembered rfl)
        (Tree.alive_of_mem List.mem_cons_self) named hi hpath

/-- The outline is sound and memory intact in every session that there is. -/
theorem Run.sound (run : S.Run) : S.Sound := by
  induction run with
  | start st d => exact sound_of_start st d
  | step _ hs ih => exact (hs.carries ih).1.sound
  | save _ hs ih => exact (hs.carries ih).1.sound

/-! ### Between two saves -/

/-- An object is in the document, and an item is a folder or file that remembers it, if it is there. -/
structure Keeps (S : Session) (x : Handle) (X : SharedTree) : Prop where
  placed : ∃ D, S.outline.document = some D ∧ Part X D
  remembered : ∀ {i}, S.outline.get? x = some i →
    i.kind.namesPath = true ∧ S.outline.Remembers x X

theorem Keeps.alive (k : S.Keeps x X) : Alive S.trees X := by
  obtain ⟨D, hD, hp⟩ := k.placed
  exact ⟨D, List.mem_append_left _ (Option.mem_toList.mpr hD), hp⟩

theorem Keeps.carried (k : S.Keeps x X) (C : S.Carries S')
    (hclean : ∀ i, S'.outline.get? x = some i → i.dirty = false) {i : Item}
    (hi : S'.outline.get? x = some i) :
    i.kind.namesPath = true ∧ S'.outline.Remembers x X := by
  obtain ⟨j, hj, hkind, hr⟩ := C.spared hi (hclean i hi)
  obtain ⟨hpath, hX⟩ := k.remembered hj
  exact ⟨hkind ▸ hpath, hr hX k.alive⟩

theorem Keeps.between (k : S.Keeps x X) (so : S.Sound)
    (steps : Relation.ReflTransGen (Spares x) S S') : S'.Sound ∧ S'.Keeps x X := by
  induction steps with
  | refl => exact ⟨so, k⟩
  | tail _ hs ih =>
      obtain ⟨so, k⟩ := ih
      obtain ⟨C, hdoc⟩ := hs.1.carries so
      exact ⟨C.sound, hdoc ▸ k.placed, fun hi => k.carried C hs.2 hi⟩

/-- A folder or file that is there at two saves and not marked between them is the same object in
both documents, at its path of the moment. -/
theorem Run.shared_between_saves (run : S.Run) (first : S.Saves S₁)
    (between : Relation.ReflTransGen (Spares x) S₁ S₂) (second : S₂.Saves S₃)
    (hx₁ : S₁.outline.Reachable x) (hx₃ : S₃.outline.Reachable x)
    (hd : S₁.outline.isOnDisk x = true) :
    ∃ names names' t, S₁.outline.diskNames x = .ok names ∧
      S₁.outline.document.bind (·.find? names) = some t ∧
      S₃.outline.diskNames x = .ok names' ∧
      S₃.outline.document.bind (·.find? names') = some t := by
  obtain ⟨C₁, -, D₁, hD₁, found₁⟩ := first.carries run.sound
  have so₁ := C₁.sound.outline
  obtain ⟨i₁, hi₁⟩ := so₁.tree.live_of_reachable hx₁
  rw [isOnDisk_eq hi₁] at hd
  obtain ⟨X, hX, hfind₁⟩ := found₁ hi₁ hd
  have k₁ : S₁.Keeps x X := by
    refine ⟨⟨D₁, hD₁, Tree.part_of_find? hfind₁⟩, fun {i} hi => ⟨?_, hX⟩⟩
    rw [hi₁] at hi
    exact Option.some.inj hi ▸ hd
  -- the first document keeps `X` alive until the root is refreshed for the second save
  obtain ⟨so₂, k₂⟩ := k₁.between C₁.sound between
  obtain ⟨C₃, clean₃, D₃, hD₃, found₃⟩ := second.carries so₂
  have so₃ := C₃.sound.outline
  obtain ⟨i₃, hi₃⟩ := so₃.tree.live_of_reachable hx₃
  obtain ⟨hpath, hX₃⟩ := k₂.carried C₃ (fun _ => clean₃) hi₃
  obtain ⟨Y, hY, hfind₃⟩ := found₃ hi₃ hpath
  obtain rfl : X = Y := Option.some.inj ((hX₃.cache hi₃).symm.trans (hY.cache hi₃))
  refine ⟨_, _, X, so₁.tree.diskNames_of_get? so₁.attached hi₁, ?_,
    so₃.tree.diskNames_of_get? so₃.attached hi₃, ?_⟩
  · rw [hD₁]
    exact hfind₁
  · rw [hD₃]
    exact hfind₃

theorem saves_of_next? {W W' : Workspace} {held : List SharedTree}
    (hs : EditStep.next? W (.save held) = some W') : Saves ⟨W, held⟩ ⟨W', held⟩ := by
  rw [EditStep.next?] at hs
  split at hs
  · rename_i t W₁ hx
    obtain rfl := Option.some.inj hs
    exact .save hx rfl
  · cases hs

theorem step_of_edit {W W' : Workspace} {held : List SharedTree} {c : EditCall}
    (hs : (EditStep.edit c).Takes W W') : Step ⟨W, held⟩ ⟨W', held⟩ := by
  cases hs with
  | edit hlive hx hr => exact .edit hlive hx hr

/-- Sessions go on with edits that are played. -/
theorem Run.play {W W' : Workspace} {held : List SharedTree} {steps : List EditStep}
    (run : Run ⟨W, held⟩) (hedits : ∀ s ∈ steps, ∃ c, s = .edit c)
    (hp : W.play steps = some W') : Run ⟨W', held⟩ := by
  refine Workspace.play_induction (fun (run : Run ⟨_, held⟩) => run.sound.outline)
    (fun hmem run hs => ?_) run hp
  obtain ⟨c, rfl⟩ := hedits _ hmem
  exact run.step (step_of_edit hs)

/-- A file in a folder that is renamed, after which an image of all was asked for and let go. -/
theorem Run.shared_in_renamed_folder : ∃ (S S₁ S₂ S₃ : Session) (t : SharedTree), S.Run ∧
    S.Saves S₁ ∧ Relation.ReflTransGen (Spares ⟨3, 0⟩) S₁ S₂ ∧ S₂.Saves S₃ ∧
    S₁.outline.document.bind (·.find? ["d", "a"]) = some t ∧
    S₃.outline.document.bind (·.find? ["e", "a"]) = some t := by
  obtain ⟨⟨W, W₁, W₂, W₃⟩, hplay, hW⟩ := (Option.any_eq_true ..).mp (show
    ((Workspace.play ⟨Outline.new "P", 0, []⟩ [.edit (.add Outline.root .group "Package"),
      .edit (.add ⟨1, 0⟩ .folder "d"), .edit (.add ⟨2, 0⟩ .file "a"),
      .edit (.setContents ⟨3, 0⟩ [0x31])]).bind fun W =>
      (EditStep.next? W (.save [])).bind fun W₁ =>
      (EditStep.next? W₁ (.edit (.rename ⟨2, 0⟩ "e"))).bind fun W₂ =>
      (EditStep.next? (exec (Workspace.image [] Outline.root) W₂).2 (.save [])).map fun W₃ =>
        (W, W₁, W₂, W₃)).any (fun (_, W₁, W₂, W₃) =>
          (W₁.outline.get? ⟨3, 0⟩).any (·.kind.namesPath) &&
          (W₁.outline.diskNames ⟨3, 0⟩).toOption == some ["d", "a"] &&
          (W₂.outline.get? ⟨3, 0⟩).any (!·.dirty) &&
          ((exec (Workspace.image [] Outline.root) W₂).2.outline.get? ⟨3, 0⟩).any (!·.dirty) &&
          (W₃.outline.get? ⟨3, 0⟩).isSome &&
          (W₃.outline.diskNames ⟨3, 0⟩).toOption == some ["e", "a"]) = true by decide +kernel)
  obtain ⟨W, hedits, hplay⟩ := Option.bind_eq_some_iff.mp hplay
  obtain ⟨W₁, hsave₁, hplay⟩ := Option.bind_eq_some_iff.mp hplay
  obtain ⟨W₂, hrename, hplay⟩ := Option.bind_eq_some_iff.mp hplay
  obtain ⟨W₃, hsave₃, heq⟩ := Option.map_eq_some_iff.mp hplay
  cases heq
  simp only [Bool.and_eq_true, beq_iff_eq] at hW
  obtain ⟨⟨⟨⟨⟨hdisk, hnames₁⟩, hclean₂⟩, hclean₂'⟩, hlive₃⟩, hnames₃⟩ := hW
  have clean : ∀ {o : Outline}, (o.get? ⟨3, 0⟩).any (!·.dirty) = true →
      ∀ i, o.get? ⟨3, 0⟩ = some i → i.dirty = false := by
    intro o h i hi
    rw [hi, Option.any_some] at h
    simpa using h
  have run₀ : Run ⟨⟨Outline.new "P", 0, []⟩, []⟩ := .start (.new "P" none) ⟨nofun, nofun⟩
  have run : Run ⟨W, []⟩ := run₀.play (by simp) hedits
  have first := saves_of_next? hsave₁
  have run₁ := run.save first
  have hstep : Step ⟨W₁, []⟩ ⟨W₂, []⟩ := step_of_edit (run₁.sound.outline.takes_of_next? hrename)
  rcases himage : exec (Workspace.image [] Outline.root) W₂ with ⟨r, V₂⟩
  rw [himage] at hclean₂' hsave₃
  have himage' : Step ⟨W₂, []⟩ ⟨V₂, r.toOption.toList ++ []⟩ := .image .root himage
  have hdrop : Step ⟨V₂, r.toOption.toList ++ []⟩ ⟨V₂, []⟩ := .hold fun _ ht => by cases ht
  have between : Relation.ReflTransGen (Spares ⟨3, 0⟩) ⟨W₁, []⟩ ⟨V₂, []⟩ :=
    .tail (.tail (.tail .refl ⟨hstep, clean hclean₂⟩) ⟨himage', clean hclean₂'⟩)
      ⟨hdrop, clean hclean₂'⟩
  have second := saves_of_next? hsave₃
  have run₃ := (((run₁.step hstep).step himage').step hdrop).save second
  obtain ⟨i₁, hi₁, -⟩ := (Option.any_eq_true ..).mp hdisk
  obtain ⟨names, names', t, hn₁, ht₁, hn₃, ht₃⟩ := run.shared_between_saves first between second
    (run₁.sound.outline.reachable (Option.isSome_of_eq_some hi₁))
    (run₃.sound.outline.reachable hlive₃) hdisk
  rw [hn₁] at hnames₁
  rw [hn₃] at hnames₃
  obtain rfl := Option.some.inj hnames₁
  obtain rfl := Option.some.inj hnames₃
  exact ⟨_, _, _, _, t, run, first, between, second, ht₁, ht₃⟩

end Session

end PackageOutline
