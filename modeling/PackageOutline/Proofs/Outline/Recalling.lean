import PackageOutline.Proofs.Disk.Writing
import PackageOutline.Proofs.Outline.Calls
import PackageOutline.Proofs.Outline.Images
import PackageOutline.Proofs.Outline.Inheriting
import PackageOutline.Proofs.Outline.Picture

/-! # Names in images

Whatever is called on an outline, every image that it gives can be stored: at any depth, the names in
a directory are distinct, and each of them is one component of a path.

* `Outline.Recalls`: an outline remembers no image that another does not.  Edits never remember
  anything new (`Edit.recalls`).
* `Outline.Stowed`: an outline in order, in which all images that are remembered can be stored.
  Asking for an image keeps it so and gives an image that can be stored (`ensures_image`,
  `ensures_refresh`): the names of children are valid, transparent children pass on entries of images
  that can be stored, and a directory with a name twice is refused.
* `CallRun.stowed`: so it is on all runs. -/

namespace PackageOutline

namespace Outline

variable {o o' o'' : Outline} {h x p : Handle} {i j : Item} {t : SharedTree}

/-! ### What edits remember -/

/-- Every image that the second outline remembers, the first one remembers too. -/
def Recalls (o o' : Outline) : Prop :=
  ∀ ⦃h j t⦄, o'.get? h = some j → j.cache = some t → ∃ x i, o.get? x = some i ∧ i.cache = some t

end Outline

/-- What a marked and a new item do not remember, an edit does not make any item remember. -/
theorem Edit.recalls {ε α : Type} {x : ExceptT ε (StateM Outline) α}
    (hx : ∀ P, ¬ P true none → ¬ P false none → Always (Outline.Inherits P) x) :
    Always Outline.Recalls x := by
  intro o r o' hrun h j t hj ht
  obtain ⟨i, hi, ht⟩ := hx (fun _ cache => cache = some t) nofun nofun hrun hj ht
  exact ⟨h, i, hi, ht⟩

/-! ### Images that can be stored -/

/-- What is known of the item of a handle: only the root has a name of any kind, the root is nobody's
child, and an image that is remembered can be stored. -/
structure Item.Tidy (h : Handle) (i : Item) : Prop where
  named : h ≠ Outline.root → Identifier.isValid i.name = true
  children : ∀ c ∈ i.children, c ≠ Outline.root
  memory : ∀ t, i.cache = some t → t.Storable

namespace Outline

variable {o o' : Outline} {h : Handle} {i j : Item}

/-- The tree is in order, and all images that are remembered can be stored. -/
structure Stowed (o : Outline) : Prop where
  tree : o.WellFormed
  memory : ∀ {h i t}, o.get? h = some i → i.cache = some t → t.Storable

theorem Stowed.recalls (s : o.Stowed) (r : Recalls o o') (w : o'.WellFormed) : o'.Stowed := by
  refine ⟨w, fun {h j t} hj ht => ?_⟩
  obtain ⟨x, i, hi, ht⟩ := r hj ht
  exact s.memory hi ht

theorem Stowed.tidy (s : o.Stowed) (hi : o.get? h = some i) : i.Tidy h := by
  refine ⟨s.tree.valid hi, fun c hc hroot => ?_, fun t ht => s.memory hi ht⟩
  obtain ⟨k, hk, hp⟩ := s.tree.child hi hc
  obtain ⟨r, hr, -, hnone⟩ := s.tree.root
  rw [hroot, hr] at hk
  rw [← Option.some.inj hk, hnone] at hp
  cases hp

/-- An item may remember another image that can be stored. -/
theorem Stowed.remember (s : o.Stowed) (hi : o.get? h = some i) (hj : j.frame = i.frame)
    (hmemory : ∀ t, j.cache = some t → t.Storable) : (o.set h j).Stowed := by
  refine ⟨s.tree.congr (.set hi hj), fun {x k t} hk ht => ?_⟩
  rcases of_get?_set hi hk with ⟨-, rfl⟩ | ⟨-, hk⟩
  · exact hmemory t ht
  · exact s.memory hk ht

theorem stowed_new (package : String) (document : Option SharedTree) :
    (new package document).Stowed := by
  refine ⟨(fresh_new package document).tree, fun {h i t} hi ht => ?_⟩
  rw [((fresh_new package document).idle hi).2.1] at ht
  cases ht

end Outline

namespace Workspace

open Outline

variable {α : Type} {h : Handle} {held made : List SharedTree}

/-- Whether the outline that is worked on is in order and remembers images that can be stored. -/
def Stowed (W : Workspace) : Prop := W.outline.Stowed

theorem ensures_read {P : α → Prop} {f : Outline → Except Violation α}
    (hf : ∀ {o a}, o.Stowed → f o = .ok a → P a) : Ensures Stowed P (read f) := by
  intro W r W' hx hW
  rw [exec_read] at hx
  obtain ⟨rfl, rfl⟩ := Prod.mk.inj hx
  exact ⟨hW, fun a ha => hf hW (mapError_eq_ok.mp ha)⟩

theorem ensures_item (h : Handle) : Ensures Stowed (Item.Tidy h) (read (·.item h)) :=
  ensures_read fun s hi => s.tidy (item_eq_ok_iff.mp hi)

theorem ensures_names (h : Handle) : Ensures Stowed (fun _ => True) (read (·.diskNames h)) :=
  ensures_read fun _ _ => trivial

theorem ensures_note (level : Level) (origin : Origin) (text : String) :
    Ensures Stowed (fun _ => True) (note level origin text) := by
  intro W r W' hx hW
  obtain ⟨-, rfl⟩ := Prod.mk.inj hx
  exact ⟨hW, fun _ _ => trivial⟩

theorem ensures_make {f : ObjectId → SharedTree} (hf : ∀ l, (f l).Storable) :
    Ensures Stowed Tree.Storable (make f) := by
  intro W r W' hx hW
  obtain ⟨rfl, rfl⟩ := Prod.mk.inj hx
  refine ⟨hW, fun t ht => ?_⟩
  rw [← Except.ok.inj ht]
  exact hf _

theorem ensures_updateItem {u : Item → Item} (hframe : ∀ i, (u i).frame = i.frame)
    (hmemory : ∀ i t, (u i).cache = some t → t.Storable) :
    Ensures Stowed (fun _ => True) (updateItem h u) := by
  intro W r W' hx hW
  refine ⟨?_, fun _ _ => trivial⟩
  unfold updateItem at hx
  rw [exec_mk] at hx
  split at hx
  · rename_i o' ho
    obtain ⟨i, hi, rfl⟩ := update_eq_ok_iff.mp ho
    obtain ⟨-, rfl⟩ := Prod.mk.inj hx
    exact hW.remember hi (hframe i) (hmemory i)
  · obtain ⟨-, rfl⟩ := Prod.mk.inj hx
    exact hW

theorem storable_contribution {i : Item} {t : SharedTree} {e : String × SharedTree}
    (hvalid : Identifier.isValid i.name = true) (ht : t.Storable) (he : e ∈ contribution i t) :
    Identifier.isValid e.1 = true ∧ e.2.Storable := by
  unfold contribution at he
  split at he
  · cases t with
    | file l c => cases he
    | dir l es =>
        rw [Tree.Storable, Tree.storableAll_iff] at ht
        exact ht.2 e he
  · obtain rfl := List.mem_singleton.mp he
    exact ⟨hvalid, ht⟩

theorem ensures_fileImage (h : Handle) : Ensures Stowed Tree.Storable (fileImage h) := by
  refine (ensures_item h).bind fun i _ => ?_
  split
  · exact ensures_make fun l => by rw [Tree.Storable]; trivial
  · refine (ensures_names h).bind fun names _ => Ensures.get.bind fun W _ => ?_
    split
    · -- directories of the document are passed over
      rename_i t ht
      cases t with
      | file l c => exact .pure (by rw [Tree.Storable]; trivial)
      | dir l es => cases (Option.filter_eq_some_iff.mp ht).2
    · exact .throw _

theorem ensures_assemble (h : Handle) {parts : List (Handle × SharedTree)}
    (hparts : ∀ q ∈ parts, q.1 ≠ root ∧ q.2.Storable) :
    Ensures Stowed Tree.Storable (assemble h parts) := by
  refine (Ensures.mapM (Q := fun es => ∀ e ∈ es, Identifier.isValid e.1 = true ∧ e.2.Storable)
    fun q hq => ?_).bind fun contributions hcs => ?_
  · obtain ⟨hroot, ht⟩ := hparts q hq
    exact (ensures_item q.1).bind fun i hi => .pure fun e he =>
      storable_contribution (hi.named hroot) ht he
  · dsimp only
    split
    · exact (ensures_names h).bind fun _ _ => .throw _
    · rename_i hrepeat
      refine ensures_make fun l => ?_
      rw [Tree.Storable, Tree.storableAll_iff]
      refine ⟨(firstRepeat_eq_none hrepeat).1, fun e he => ?_⟩
      obtain ⟨es, hes, he⟩ := List.mem_flatten.mp he
      exact hcs es hes e he

theorem ensures_remembering {mark : Bool → Bool} {x : Work SharedTree}
    (hx : Ensures Stowed Tree.Storable x) :
    Ensures Stowed Tree.Storable (remembering h mark x) := by
  refine hx.bind fun t ht => Ensures.bind (ensures_updateItem (by intro; rfl) ?_) fun _ _ => .pure ht
  intro _ u hu
  rwa [← Option.some.inj hu]

theorem storable_add {parts : List (Handle × SharedTree)} {c : Handle} {t : SharedTree}
    (hparts : ∀ q ∈ parts, q.1 ≠ root ∧ q.2.Storable) (hc : c ≠ root) (ht : t.Storable) :
    ∀ q ∈ parts ++ [(c, t)], q.1 ≠ root ∧ q.2.Storable :=
  List.forall_mem_append.mpr ⟨hparts, by simp [hc, ht]⟩

theorem ensures_imageAt (levels : Nat) (h : Handle) :
    Ensures Stowed Tree.Storable (imageAt held levels made h) := by
  induction levels generalizing made h with
  | zero => exact .throw _
  | succ levels ih =>
      rw [imageAt_succ]
      refine (ensures_item h).bind fun i hi => ?_
      split
      · rename_i t ht
        exact (ensures_note _ _ _).bind fun _ _ => .pure (hi.memory t (cached_eq_some ht).2)
      · refine ensures_remembering ?_
        split
        · exact ensures_fileImage h
        · refine Ensures.bind (Ensures.foldlM
            (Q := fun parts => ∀ q ∈ parts, q.1 ≠ root ∧ q.2.Storable)
            (fun parts child hc hparts => ?_) (by simp)) fun parts hparts => ?_
          · exact (ih child).bind fun t ht => .pure (storable_add hparts (hi.children child hc) ht)
          · exact ensures_assemble h hparts

theorem ensures_image (h : Handle) : Ensures Stowed Tree.Storable (image held h) :=
  Ensures.get.bind fun _ _ => ensures_imageAt _ h

theorem ensures_refreshAt (levels : Nat) (h : Handle) :
    Ensures Stowed (fun r => ∀ t ∈ r, t.Storable) (refreshAt held levels made h) := by
  induction levels generalizing made h with
  | zero => exact .throw _
  | succ levels ih =>
      rw [refreshAt_succ]
      refine (ensures_item h).bind fun i hi => ?_
      split
      · exact .pure (by simp)
      · refine (ensures_remembering ?_).bind fun t ht => .pure fun u hu => Option.some.inj hu ▸ ht
        split
        · exact ensures_fileImage h
        · refine Ensures.bind (Ensures.foldlM
            (Q := fun b : List (Handle × SharedTree) × Nat =>
              ∀ q ∈ b.1, q.1 ≠ root ∧ q.2.Storable)
            (fun b child hc hparts => ?_) (by simp)) fun b hparts => ?_
          · have hroot := hi.children child hc
            refine (ih child).bind fun part hpart => ?_
            split
            · exact .pure (storable_add hparts hroot (hpart _ rfl))
            · exact (ensures_imageAt levels child).bind fun t ht =>
                .pure (storable_add hparts hroot ht)
          · refine Ensures.get.bind fun W _ => (ensures_note _ _ _).bind fun _ _ => ?_
            exact ensures_assemble h hparts

theorem ensures_refresh (h : Handle) :
    Ensures Stowed (fun r => ∀ t ∈ r, t.Storable) (refresh held h) :=
  Ensures.get.bind fun _ _ => ensures_refreshAt _ h

end Workspace

/-! ### On all runs -/

/-- Whatever images a call leaves in memory can be stored, if all that were there could be. -/
theorem Call.stowed {W : Workspace} (s : W.Stowed) (c : Call) (w : (c.after W).outline.WellFormed) :
    (c.after W).Stowed := by
  have edited : ∀ {α : Type} {e : Edit α},
      (∀ P, ¬ P true none → ¬ P false none → Always (Outline.Inherits P) e) →
      Outline.Recalls W.outline (exec e.work W).2.outline :=
    fun he => Upheld.always_work (Edit.recalls he) W
  cases c with
  | create p kind name => exact s.recalls (edited fun P _ => Edit.inherits_create) w
  | add p kind name => exact s.recalls (edited fun P => Edit.inherits_add) w
  | attach p index h => exact s.recalls (edited fun P _ _ => Edit.inherits_attach) w
  | insert p index h => exact s.recalls (edited fun P mark _ => Edit.inherits_insert mark) w
  | setContents h c =>
      exact s.recalls (Edit.recalls (fun P mark _ => Edit.inherits_setContents mark)
        (Workspace.exec_of_edit rfl)) w
  | markDirty h => exact s.recalls (edited fun P mark _ => Edit.inherits_markDirty mark h) w
  | rename h name => exact s.recalls (edited fun P mark _ => Edit.inherits_rename mark) w
  | remove h => exact s.recalls (edited fun P mark _ => Edit.inherits_remove mark) w
  | move p start stop => exact s.recalls (edited fun P mark _ => Edit.inherits_move mark) w
  | reorder p order => exact s.recalls (edited fun P mark _ => Edit.inherits_reorder mark) w
  | image held h =>
      exact (((Workspace.ensures_image h).bind fun _ _ => .pure (P := fun _ => True) trivial) rfl s).1
  | refresh held h =>
      exact (((Workspace.ensures_refresh h).bind fun _ _ =>
        .pure (P := fun _ => True) trivial) rfl s).1
  | commit document => exact ⟨w, s.memory⟩

/-- On all runs, whatever images are remembered can be stored. -/
theorem CallRun.stowed {may : Outline → Call → Prop} {n : Nat} {W : Workspace}
    (run : CallRun may n W) (hn : n < 2 ^ 32) : W.Stowed := by
  induction run with
  | start package document next notices => exact Outline.stowed_new package document
  | call c run hmay ih =>
      have tended := (run.call c hmay).upheld (Outline.Tended.upheld may) hn
      exact c.stowed (ih (Nat.lt_of_le_of_lt (Nat.le_add_right _ _) hn)) tended.tree

end PackageOutline
