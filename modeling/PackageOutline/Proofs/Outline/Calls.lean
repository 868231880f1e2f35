import PackageOutline.Proofs.Outline.Tended

/-! # Runs of calls

A caller may call an outline in any way: with items that are gone or were never there, with items
that are not attached, and also after a call was refused halfway.  `CallRun may n W` says that calls
of the kind that `may` allows lead from a new outline to `W`, and release `n` items on the way.

* `Upheld` lists what makes a property hold on all runs (`CallRun.upheld`), as long as the
  generations of slots do not come round.
* `CallRun.inOrder`: on every run the tree is in order and the free slots are known. -/

namespace PackageOutline

/-- A call on an outline, with its arguments. -/
inductive Call where
  | create (parent : Handle) (kind : Kind) (name : String)
  | add (parent : Handle) (kind : Kind) (name : String)
  | attach (parent : Handle) (index : Nat) (item : Handle)
  | insert (parent : Handle) (index : Nat) (item : Handle)
  | setContents (item : Handle) (contents : Bytes)
  | markDirty (item : Handle)
  | rename (item : Handle) (name : String)
  | remove (item : Handle)
  | move (parent : Handle) (start stop : Nat)
  | reorder (parent : Handle) (order : List Handle)
  | image (held : List SharedTree) (item : Handle)
  | refresh (held : List SharedTree) (item : Handle)
  | commit (document : SharedTree)

/-- An edit as work on an outline. -/
def Edit.work {α : Type} (e : Edit α) : Work Unit :=
  Workspace.edit ((e >>= fun _ => pure ()).adapt .violation)

namespace Call

/-- What a call does. -/
def work : Call → Work Unit
  | create parent kind name => (Edit.create parent kind name).work
  | add parent kind name => (Edit.add parent kind name).work
  | attach parent index item => (Edit.attach parent index item).work
  | insert parent index item => (Edit.insert parent index item).work
  | setContents item contents => Workspace.edit (Edit.setContents item contents)
  | markDirty item => (Edit.markDirty item).work
  | rename item name => (Edit.rename item name).work
  | remove item => (Edit.remove item).work
  | move parent start stop => (Edit.move parent start stop).work
  | reorder parent order => (Edit.reorder parent order).work
  | image held item => Workspace.image held item >>= fun _ => pure ()
  | refresh held item => Workspace.refresh held item >>= fun _ => pure ()
  | commit document => Workspace.commit document

/-- What a call leaves behind, however it ends. -/
def after (c : Call) (W : Workspace) : Workspace := (exec c.work W).2

end Call

/-- Allowed calls lead from a new outline to a workspace, and release `n` items on the way. -/
inductive CallRun (may : Outline → Call → Prop) : Nat → Workspace → Prop
  | start (package : String) (document : Option SharedTree) (next : ObjectId)
      (notices : List Notice) : CallRun may 0 ⟨Outline.new package document, next, notices⟩
  | call {n : Nat} {W : Workspace} (c : Call) : CallRun may n W → may W.outline c →
      CallRun may (n + W.outline.released (c.after W).outline) (c.after W)

/-- What a property of outlines and numbers of releases needs to hold on all runs. -/
structure Upheld (may : Outline → Call → Prop) (P : Nat → Outline → Prop) : Prop where
  start : ∀ package document, P 0 (Outline.new package document)
  mono : ∀ {n m o}, n ≤ m → P n o → P m o
  tree : ∀ {n o}, P n o → o.WellFormed
  look : ∀ {n o o'}, Outline.Alike Outline.look o o' → P n o → P n o'
  mark : ∀ {n o o' h r}, exec (Edit.markDirty h) o = (r, o') → P n o → P n o'
  create : ∀ {n o o' p kind name h}, o.create p kind name = .ok (h, o') → P n o → P n o'
  attach : ∀ {n o o' p index h}, may o (.attach p index h) → o.attach p index h = .ok o' →
    P n o → P n o'
  insert : ∀ {n o o₁ o' p index h r}, o.attach p index h = .ok o₁ →
    exec (Edit.markDirty h) o₁ = (r, o') → P n o → P n o'
  rename : ∀ {n o o₁ h i k name}, o.get? h = some i → o.checkName h i name = .ok () →
    Outline.Alike Outline.look o o₁ → o₁.get? h = some k → P n o →
    P n (o₁.set h { k with name })
  permute : ∀ {n o p j cs}, o.get? p = some j → cs.Perm j.children → P n o →
    P n (o.set p { j with children := cs })
  refresh : ∀ {n held h r W W'}, exec (Workspace.refresh held h) W = (r, W') → P n W.outline →
    P n W'.outline
  remove : ∀ {n o o' h r}, exec (Edit.remove h) o = (r, o') → n + o.released o' < 2 ^ 32 → P n o →
    P (n + o.released o') o'

namespace Upheld

open Outline

variable {may : Outline → Call → Prop} {P : Nat → Outline → Prop} {n : Nat} {o o' : Outline}
  {h p : Handle} {W : Workspace}

/-! ### Edits -/

theorem always_create (u : Upheld may P) (p : Handle) (kind : Kind) (name : String) :
    Always (Preserves (P n)) (Edit.create p kind name) :=
  Edit.always_changeWith fun hc hp => u.create hc hp

theorem always_markDirty (u : Upheld may P) (h : Handle) :
    Always (Preserves (P n)) (Edit.markDirty h) :=
  fun _ _ _ hx hp => u.mark hx hp

theorem always_insert (u : Upheld may P) (p : Handle) (index : Nat) (h : Handle) :
    Always (Preserves (P n)) (Edit.insert p index h) := by
  intro o r o' hx hp
  rcases Edit.exec_change_cases hx with ⟨v, -, rfl⟩ | ⟨o₁, hattach, hmark⟩
  · exact hp
  · exact u.insert hattach hmark hp

theorem always_add (u : Upheld may P) (p : Handle) (kind : Kind) (name : String) :
    Always (Preserves (P n)) (Edit.add p kind name) :=
  (u.always_create p kind name).bind fun h => (Edit.always_read _).bind fun above =>
    (u.always_insert p above.children.length h).bind fun _ => .pure h

theorem always_setContents (u : Upheld may P) (h : Handle) (c : Bytes) :
    Always (Preserves (P n)) (Edit.setContents h c) := by
  refine ((Edit.always_read _).adapt _).bind fun i => ?_
  split
  · refine Always.adapt (Always.bind ?_ fun _ => u.always_markDirty h) _
    refine (Edit.update_alike (fun i => { i with contents := some c }) ?_ h).mono u.look
    exact fun _ => rfl
  · exact .throw _

theorem always_rename (u : Upheld may P) (h : Handle) (name : String) :
    Always (Preserves (P n)) (Edit.rename h name) := by
  intro o r o' hx hp
  unfold Edit.rename at hx
  rcases Edit.exec_read_cases hx with ⟨v, -, -, rfl⟩ | ⟨i, hi, hrest⟩
  · exact hp
  rcases Edit.exec_read_cases hrest with ⟨v, -, -, rfl⟩ | ⟨_, hname, hrest'⟩
  · exact hp
  have named : ∀ {o₁ : Outline} {r}, Outline.Alike Outline.look o o₁ → exec (Edit.change
      (·.update h fun i => { i with name }) >>= fun _ => Edit.markDirty h) o₁ = (r, o') →
      P n o' := by
    intro o₁ r a hnamed
    rcases Edit.exec_change_cases hnamed with ⟨v, -, rfl⟩ | ⟨o₂, hchange, hmark⟩
    · exact u.look a hp
    · obtain ⟨k, hk, rfl⟩ := update_eq_ok_iff.mp hchange
      exact u.mark hmark (u.rename (item_eq_ok_iff.mp hi) hname a hk hp)
  split at hrest'
  · rcases exec_bind_cases hrest' with ⟨v, hkeep, -⟩ | ⟨_, o₁, hkeep, hnamed⟩
    · exact u.look (Edit.keepContents_alike h hkeep) hp
    · exact named (Edit.keepContents_alike h hkeep) hnamed
  · exact named (refl o) hrest'

theorem always_move (u : Upheld may P) (p : Handle) (start stop : Nat) :
    Always (Preserves (P n)) (Edit.move p start stop) := by
  refine (Edit.always_change fun hm hp => ?_).bind fun _ => u.always_markDirty p
  obtain ⟨j, c, hj, hc, hstop, rfl⟩ := moveChild_eq_ok hm
  exact u.permute hj (perm_of_move hc hstop) hp

theorem always_reorder (u : Upheld may P) (p : Handle) (order : List Handle) :
    Always (Preserves (P n)) (Edit.reorder p order) := by
  refine (Edit.always_change fun ha hp => ?_).bind fun _ => u.always_markDirty p
  obtain ⟨j, hj, horder, rfl⟩ := arrange_eq_ok ha
  exact u.permute hj ((isReorder_iff ((u.tree hp).nodup hj)).mp horder) hp

/-! ### Calls -/

theorem always_attach (u : Upheld may P) (p : Handle) (index : Nat) (h : Handle) :
    Always (fun o o' => may o (.attach p index h) → P n o → P n o') (Edit.attach p index h) := by
  intro o r o' hx hmay hp
  cases r with
  | error v => rwa [Edit.eq_of_change_error hx]
  | ok _ => exact u.attach hmay (Edit.exec_change_eq_ok.mp hx) hp

theorem always_work {R : Outline → Outline → Prop} {α : Type} {e : Edit α} (he : Always R e)
    (W : Workspace) : R W.outline (exec e.work W).2.outline := by
  have hwork : (exec e.work W).2.outline = (exec e W.outline).2 := exec_bind_pure_snd e () W.outline
  rw [hwork]
  exact he rfl

theorem call (u : Upheld may P) (c : Call) (hmay : may W.outline c) (hc : ∀ h, c ≠ .remove h)
    (hp : P n W.outline) : P n (c.after W).outline := by
  cases c with
  | create p kind name => exact always_work (u.always_create p kind name) W hp
  | add p kind name => exact always_work (u.always_add p kind name) W hp
  | attach p index h => exact always_work (u.always_attach p index h) W hmay hp
  | insert p index h => exact always_work (u.always_insert p index h) W hp
  | setContents h c => exact u.always_setContents h c (Workspace.exec_of_edit rfl) hp
  | markDirty h => exact always_work (u.always_markDirty h) W hp
  | rename h name => exact always_work (u.always_rename h name) W hp
  | remove h => exact absurd rfl (hc h)
  | move p start stop => exact always_work (u.always_move p start stop) W hp
  | reorder p order => exact always_work (u.always_reorder p order) W hp
  | image held h =>
      exact u.look (((Workspace.image_alike h).bind fun _ => .pure ()) rfl) hp
  | refresh held h =>
      have hstate : (Call.refresh held h).after W = (exec (Workspace.refresh held h) W).2 :=
        exec_bind_pure_snd (Workspace.refresh held h) () W
      rw [hstate]
      exact u.refresh rfl hp
  | commit document => exact u.look (o := W.outline) ⟨⟨rfl, rfl, fun _ => rfl⟩, fun _ => rfl⟩ hp

/-- What any call leaves behind, with the items that it released. -/
theorem step (u : Upheld may P) (c : Call) (hmay : may W.outline c)
    (hn : n + W.outline.released (c.after W).outline < 2 ^ 32) (hp : P n W.outline) :
    P (n + W.outline.released (c.after W).outline) (c.after W).outline := by
  by_cases hc : ∃ h, c = .remove h
  · obtain ⟨h, rfl⟩ := hc
    have hremove : Always (fun o o' => n + o.released o' < 2 ^ 32 → P n o →
        P (n + o.released o') o') (Edit.remove h) := fun _ _ _ hx hn hp => u.remove hx hn hp
    exact always_work hremove W hn hp
  · exact u.mono (Nat.le_add_right _ _) (u.call c hmay (fun h he => hc ⟨h, he⟩) hp)

end Upheld

/-- What is upheld holds on all runs that release fewer items than a slot has generations. -/
theorem CallRun.upheld {may : Outline → Call → Prop} {P : Nat → Outline → Prop} {n : Nat}
    {W : Workspace} (run : CallRun may n W) (u : Upheld may P) (hn : n < 2 ^ 32) :
    P n W.outline := by
  induction run with
  | start package document next notices => exact u.start package document
  | call c run hmay ih =>
      exact u.step c hmay hn (ih (Nat.lt_of_le_of_lt (Nat.le_add_right _ _) hn))

/-! ### Playing calls -/

/-- The number of releases and the workspace after a call, if it is allowed. -/
def Call.next? (may : Outline → Call → Prop) [∀ o c, Decidable (may o c)] (s : Nat × Workspace)
    (c : Call) : Option (Nat × Workspace) :=
  if may s.2.outline c then
    some (s.1 + s.2.outline.released (c.after s.2).outline, c.after s.2)
  else none

/-- Runs go on with allowed calls one after another. -/
theorem CallRun.play {may : Outline → Call → Prop} [∀ o c, Decidable (may o c)]
    {calls : List Call} {s s' : Nat × Workspace} (run : CallRun may s.1 s.2)
    (hp : calls.foldlM (Call.next? may) s = some s') : CallRun may s'.1 s'.2 := by
  induction calls generalizing s with
  | nil =>
      obtain rfl := Option.some.inj hp
      exact run
  | cons c calls ih =>
      rw [List.foldlM_cons] at hp
      obtain ⟨s₁, hs, hrest⟩ := Option.bind_eq_some_iff.mp hp
      unfold Call.next? at hs
      split at hs
      · obtain rfl := Option.some.inj hs
        exact ih (run.call c ‹_›) hrest
      · cases hs

/-- Calls on a new outline that can be played are a run, and where it ends, what is decided holds. -/
theorem CallRun.exists_of_play (may : Outline → Call → Prop) [∀ o c, Decidable (may o c)]
    (package : String) (calls : List Call) (n : Nat) (P : Workspace → Prop) [DecidablePred P]
    (h : (calls.foldlM (Call.next? may) (0, ⟨Outline.new package, 0, []⟩)).any
      (fun s => decide (s.1 = n ∧ P s.2)) = true) : ∃ W, CallRun may n W ∧ P W := by
  obtain ⟨⟨m, W⟩, hplay, hW⟩ := (Option.any_eq_true ..).mp h
  obtain ⟨hm, hP⟩ := of_decide_eq_true hW
  obtain rfl : m = n := hm
  have run : CallRun may m W :=
    (CallRun.start package none 0 []).play (s := (0, ⟨Outline.new package, 0, []⟩)) hplay
  exact ⟨W, run, hP⟩

namespace Outline

variable {o o₁ o' : Outline} {h p : Handle} {i k : Item} {n : Nat}

/-! ### The tree -/

theorem Tended.attach {index : Nat} (t : Tended n o) (ha : o.attach p index h = .ok o') :
    Tended n o' := by
  have w := t.tree.attach ha
  obtain ⟨i, j, -, -, hj, -, -, -, rfl⟩ := attach_eq_ok ha
  exact t.setChildren hj w

theorem Tended.mark {r : Except Violation Unit} (t : Tended n o)
    (hx : exec (Edit.markDirty h) o = (r, o')) : Tended n o' :=
  t.alike (Edit.markDirty_alike h hx)

theorem Tended.rename {name : String} (t : Tended n o) (hi : o.get? h = some i)
    (hname : o.checkName h i name = .ok ()) (a : Alike look o o₁) (hk : o₁.get? h = some k) :
    Tended n (o₁.set h { k with name }) :=
  (t.alike a.frame).of_parents (.set hk rfl) (t.tree.rename hi hname a.frame.agree hk)

/-- All calls keep outlines tended. -/
theorem Tended.upheld (may : Outline → Call → Prop) : Upheld may Tended where
  start := tended_new
  mono hnm t := t.mono hnm
  tree t := t.tree
  look a t := t.alike a.frame
  mark hx t := t.mark hx
  create hc t := t.create hc
  attach _ ha t := t.attach ha
  insert ha hx t := (t.attach ha).mark hx
  rename hi hname a hk t := t.rename hi hname a hk
  permute hj hcs t := t.setChildren hj (t.tree.permute hj hcs)
  refresh hx t := t.alike (Workspace.refresh_faded _ hx).alike
  remove hx hn t := t.remove hx hn

/-! ### Order -/

/-- An outline in order. -/
structure InOrder (o : Outline) : Prop where
  /-- The root is there, is the package and has no parent. -/
  root : ∃ i, o.get? root = some i ∧ i.kind = .package ∧ i.parent = none
  /-- Children are there, name their parent, and are of kinds that the parent admits. -/
  child : ∀ {p j c}, o.get? p = some j → c ∈ j.children →
    ∃ i, o.get? c = some i ∧ i.parent = some p ∧ j.kind.admits i.kind = true
  /-- An item is among the children of one item only, and once. -/
  once : ∀ {p j}, o.get? p = some j → j.children.Nodup
  only : ∀ {p q j k c}, o.get? p = some j → o.get? q = some k → c ∈ j.children →
    c ∈ k.children → p = q
  /-- Groups that are attached stand below the root and have the reserved names. -/
  group : ∀ {p j c i}, o.get? p = some j → c ∈ j.children → o.get? c = some i →
    i.kind = .group → p = Outline.root ∧ i.name ∈ Identifier.groups
  /-- Siblings have different names. -/
  siblings : ∀ {p j c d i k}, o.get? p = some j → c ∈ j.children → d ∈ j.children → c ≠ d →
    o.get? c = some i → o.get? d = some k → i.name ≠ k.name
  /-- Below the root every name is one component of a path. -/
  named : ∀ {h i}, o.get? h = some i → h ≠ Outline.root →
    i.name ≠ "" ∧ i.name ≠ "." ∧ i.name ≠ ".." ∧ '/' ∉ i.name.toList
  /-- The list of free slots holds the empty ones, each once. -/
  free : o.free.Nodup ∧ ∀ n, n ∈ o.free ↔ ∃ g, o.slots[n]? = some ⟨g, none⟩
  /-- The number of items is that of live handles. -/
  count : o.itemCount = o.live.length

theorem nodup_live (o : Outline) : o.live.Nodup := by
  refine List.Nodup.filterMap (fun n m x hn hm => ?_) List.nodup_range
  simp only [Option.mem_def, Option.bind_eq_some_iff, Option.map_eq_some_iff] at hn hm
  obtain ⟨_, -, _, -, hxn⟩ := hn
  obtain ⟨_, -, _, -, hxm⟩ := hm
  exact congrArg Handle.index (hxn.trans hxm.symm)

theorem FreeExact.length_live (e : o.FreeExact) : o.live.length + o.free.length = o.slots.size := by
  have hslots : (o.live.map Handle.index ++ o.free).Perm (List.range o.slots.size) := by
    refine (List.perm_ext_iff_of_nodup (List.nodup_append.mpr ⟨?_, e.nodup, ?_⟩)
      List.nodup_range).mpr fun n => ?_
    · refine o.nodup_live.map_on fun x hx y hy hxy => ?_
      obtain ⟨i, hi⟩ := mem_live.mp hx
      obtain ⟨j, hj⟩ := mem_live.mp hy
      exact eq_of_index_eq hi hj hxy
    · rintro n hn m hm rfl
      obtain ⟨x, hx, hxn⟩ := List.mem_map.mp hn
      obtain ⟨i, hi⟩ := mem_live.mp hx
      exact ((e.mem_iff n).mp hm).2 x i hi hxn
    · rw [List.mem_append, List.mem_map, e.mem_iff, List.mem_range]
      constructor
      · rintro (⟨x, hx, rfl⟩ | ⟨hlt, -⟩)
        · obtain ⟨i, hi⟩ := mem_live.mp hx
          exact index_lt_of_get? hi
        · exact hlt
      · intro hlt
        by_cases hlive : ∃ x ∈ o.live, x.index = n
        · exact Or.inl hlive
        · exact Or.inr ⟨hlt, fun x i hi hx => hlive ⟨x, mem_live.mpr ⟨i, hi⟩, hx⟩⟩
  have hlen := hslots.length_eq
  rwa [List.length_append, List.length_map, List.length_range] at hlen

theorem FreeExact.mem_free_iff (e : o.FreeExact) (n : Nat) :
    n ∈ o.free ↔ ∃ g, o.slots[n]? = some ⟨g, none⟩ := by
  refine ⟨e.slot_empty, fun ⟨g, hs⟩ => (e.mem_iff n).mpr ⟨?_, fun x i hi hx => ?_⟩⟩
  · exact (Array.getElem?_eq_some_iff.mp hs).1
  · rw [← hx, get?_eq_some_iff.mp hi] at hs
    cases hs

theorem WellFormed.handles_inOrder (w : o.WellFormed) : o.InOrder where
  root := w.root
  child hj hc := by
    obtain ⟨i, hi, hp⟩ := w.child hj hc
    exact ⟨i, hi, hp, w.placed hi hp hj⟩
  once := w.nodup
  only hj hk hcj hck := by
    obtain ⟨i, hi, hp⟩ := w.child hj hcj
    obtain ⟨i', hi', hq⟩ := w.child hk hck
    rw [hi] at hi'
    rw [← Option.some.inj hi', hp] at hq
    exact Option.some.inj hq
  group hj hc hi hg := by
    obtain ⟨i, hi', hp⟩ := w.child hj hc
    rw [hi] at hi'
    obtain ⟨hroot, hname⟩ := w.group hi hg
    rw [Option.some.inj hi', hp] at hroot
    exact ⟨Option.some.inj hroot, by simpa [Identifier.isGroup] using hname⟩
  siblings hj hc hd hne hi hk hn := hne (w.siblings hj hc hd hi hk hn)
  named hi hr := Identifier.isValid_iff.mp (w.valid hi hr)
  free := ⟨w.free.nodup, w.free.mem_free_iff⟩
  count := by
    have := w.free.length_live
    unfold itemCount
    omega

end Outline

/-- Whatever is called on an outline, with whatever arguments, and however often calls are refused
halfway: as long as fewer items are released than a slot has generations, the outline is in order. -/
theorem CallRun.inOrder {may : Outline → Call → Prop} {n : Nat} {W : Workspace}
    (run : CallRun may n W) (hn : n < 2 ^ 32) : W.outline.InOrder :=
  (run.upheld (Outline.Tended.upheld may) hn).tree.handles_inOrder

/-- An item made for a folder that is removed before it was attached, a slot that is used again, and
calls that are refused halfway. -/
theorem CallRun.inOrder_of_detached_items : ∃ (n : Nat) (W : Workspace),
    CallRun (fun _ _ => True) n W ∧ n = 1 ∧
    W.outline.live = [Outline.root, ⟨1, 0⟩, ⟨2, 1⟩, ⟨3, 0⟩, ⟨4, 0⟩] ∧
    (W.outline.get? ⟨3, 0⟩).map Item.parent = some (some ⟨2, 0⟩) ∧
    (W.outline.get? ⟨1, 0⟩).map Item.children = some [⟨2, 1⟩] ∧ W.outline.InOrder := by
  obtain ⟨W, run, hlive, hparent, hchildren⟩ := CallRun.exists_of_play (fun _ _ => True) "P"
    [.add Outline.root .group "Package", .add ⟨1, 0⟩ .folder "d", .create ⟨2, 0⟩ .file "x",
      .remove ⟨2, 0⟩, .add ⟨1, 0⟩ .file "d", .insert ⟨2, 0⟩ 0 ⟨3, 0⟩, .markDirty ⟨3, 0⟩,
      .add ⟨1, 0⟩ .file "d"]
    1 (fun W => W.outline.live = [Outline.root, ⟨1, 0⟩, ⟨2, 1⟩, ⟨3, 0⟩, ⟨4, 0⟩] ∧
      (W.outline.get? ⟨3, 0⟩).map Item.parent = some (some ⟨2, 0⟩) ∧
      (W.outline.get? ⟨1, 0⟩).map Item.children = some [⟨2, 1⟩]) (by decide +kernel)
  exact ⟨1, W, run, rfl, hlive, hparent, hchildren, run.inOrder (by decide)⟩

end PackageOutline
