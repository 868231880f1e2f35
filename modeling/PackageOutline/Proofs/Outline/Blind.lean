import PackageOutline.Proofs.Outline.Generations
import PackageOutline.Proofs.Outline.Runs

/-! # Edits without memory and marks

Edits do not look at what items remember, and not at marks: they come to the same in two outlines that
differ in memory and marks only, with the same result, and leave two outlines that again differ in
memory and marks only (`EditCall.blind`).

`Outline.bare` is an outline without memory and marks.  A program is blind if it does the same there
(`Blind`); the lemmas on parts of edits say this of each part. -/

namespace PackageOutline

namespace Item

variable (i : Item)

@[simp] theorem name_bare : i.bare.name = i.name := rfl

@[simp] theorem parent_bare : i.bare.parent = i.parent := rfl

@[simp] theorem children_bare : i.bare.children = i.children := rfl

end Item

/-- A slot whose item has no memory and no mark. -/
def Slot.bare (slot : Slot) : Slot := { slot with item := slot.item.map Item.bare }

theorem Slot.map_bare_bare (slot : Option Slot) :
    (slot.map bare).map bare = slot.map bare := by
  rcases slot with _ | ⟨g, _ | i⟩ <;> rfl

namespace Outline

variable {β γ : Type} {o o' : Outline} {h p : Handle} {i j : Item}

/-- The outline without memory and marks. -/
def bare (o : Outline) : Outline := { o with slots := o.slots.map Slot.bare }

@[simp] theorem size_bare (o : Outline) : o.bare.slots.size = o.slots.size := Array.size_map ..

@[simp] theorem document_bare (o : Outline) : o.bare.document = o.document := rfl

theorem slot_bare (o : Outline) (n : Nat) : o.bare.slots[n]? = o.slots[n]?.map Slot.bare :=
  Array.getElem?_map ..

@[simp] theorem generation?_bare (o : Outline) (n : Nat) :
    o.bare.generation? n = o.generation? n := by
  rw [generation?, generation?, slot_bare]
  cases o.slots[n]? <;> rfl

@[simp] theorem get?_bare (o : Outline) (h : Handle) :
    o.bare.get? h = (o.get? h).map Item.bare := by
  unfold get?
  rw [slot_bare]
  cases o.slots[h.index]? with
  | none => rfl
  | some slot =>
      simp only [Option.map_some, Slot.bare]
      split <;> rfl

@[simp] theorem item_bare (o : Outline) (h : Handle) :
    o.bare.item h = (o.item h).map Item.bare := by
  unfold item
  rw [get?_bare]
  cases o.get? h <;> rfl

theorem ext_bare (hslots : ∀ n : Nat, o'.bare.slots[n]? = o.bare.slots[n]?) (hfree : o'.free = o.free)
    (hdoc : o'.document = o.document) : o'.bare = o.bare := by
  have hs : o'.bare.slots = o.bare.slots := Array.ext_getElem? hslots
  unfold bare at hs ⊢
  rw [Outline.mk.injEq]
  exact ⟨hs, hfree, hdoc⟩

theorem bare_bare (o : Outline) : o.bare.bare = o.bare := by
  refine ext_bare (fun n => ?_) rfl rfl
  rw [slot_bare, slot_bare, Slot.map_bare_bare]

theorem bare_set (o : Outline) (h : Handle) (i : Item) : (o.set h i).bare = o.bare.set h i.bare := by
  unfold bare set
  rw [Outline.mk.injEq]
  refine ⟨Array.ext_getElem? fun n => ?_, rfl, rfl⟩
  simp only [Array.getElem?_map, Array.getElem?_modify]
  split <;> cases o.slots[n]? <;> rfl

theorem set_bare (hij : i.bare = j.bare) (o : Outline) (h : Handle) :
    (o.bare.set h i).bare = (o.set h j).bare := by
  rw [bare_set, bare_set, bare_bare, hij]

/-- Outlines with the same tree and the same generations differ in memory and marks only. -/
theorem SameTree.bare_eq (st : SameTree o o') (hg : ∀ n, o'.generation? n = o.generation? n) :
    o'.bare = o.bare := by
  refine ext_bare (fun n => ?_) st.agree.free st.document
  have hgen := hg n
  unfold generation? at hgen
  rw [slot_bare, slot_bare]
  cases hs : o.slots[n]? with
  | none =>
      rw [hs] at hgen
      rw [Option.map_eq_none_iff.mp hgen]
  | some slot =>
      obtain ⟨g, k⟩ := slot
      rw [hs] at hgen
      obtain ⟨⟨g', k'⟩, hs', rfl⟩ := Option.map_eq_some_iff.mp hgen
      have hsame := st.agree.get ⟨n, g'⟩
      unfold get? at hsame
      simp only [hs, hs', ↓reduceIte] at hsame
      rw [hs', Option.map_some, Option.map_some, Slot.bare, Slot.bare, hsame]

theorem SameTree.of_bare (h : o'.bare = o.bare) : SameTree o o' where
  agree := by
    refine ⟨?_, (Outline.mk.inj h).2.1, fun x => ?_⟩
    · rw [← size_bare, h, size_bare]
    · rw [← get?_bare, h, get?_bare]
  document := by rw [← document_bare, h, document_bare]

/-! ### Reading -/

theorem item_bind_bare {f k : Item → Except Violation β} (hfk : ∀ i, f i.bare = k i) :
    (o.bare.item h >>= f) = o.item h >>= k := by
  rw [item_bare]
  cases o.item h with
  | error v => rfl
  | ok i => exact hfk i

theorem agreeOn_bare (o : Outline) : AgreeOn Item.stem o o.bare := by
  refine ⟨size_bare o, rfl, fun x => ?_⟩
  rw [get?_bare, Option.map_map]
  rfl

@[simp] theorem relativePath_bare (o : Outline) (h : Handle) :
    o.bare.relativePath h = o.relativePath h := o.agreeOn_bare.relativePath_eq h

@[simp] theorem diskNames_bare (o : Outline) (h : Handle) :
    o.bare.diskNames h = o.diskNames h := o.agreeOn_bare.diskNames_eq h

@[simp] theorem isNamed_bare (o : Outline) (name : String) (h : Handle) :
    o.bare.isNamed name h = o.isNamed name h := by
  unfold isNamed
  rw [get?_bare]
  cases o.get? h <;> rfl

theorem walkPending_bare (o : Outline) (steps : Nat) (pending : List (Handle × Nat)) :
    o.bare.walkPending steps pending = o.walkPending steps pending := by
  induction steps generalizing pending with
  | zero => cases pending <;> rfl
  | succ steps ih =>
      cases pending with
      | nil => rfl
      | cons q pending =>
          unfold walkPending
          refine item_bind_bare fun i => ?_
          rw [ih]
          rfl

@[simp] theorem walk_bare (o : Outline) (h : Handle) : o.bare.walk h = o.walk h := by
  unfold walk
  rw [size_bare, walkPending_bare]

@[simp] theorem checkPlacement_bare (o : Outline) (kind : Kind) (name : String) :
    o.bare.checkPlacement p kind name = o.checkPlacement p kind name := by
  have hitem : (o.bare.item p >>= fun above => if above.kind.admits kind = true then pure ()
      else throw (.misplaced above.kind kind name)) = o.item p >>= fun above =>
        if above.kind.admits kind = true then pure ()
          else throw (.misplaced above.kind kind name) := item_bind_bare fun i => rfl
  unfold checkPlacement
  simp only [hitem]

@[simp] theorem checkSiblings_bare (o : Outline) (name : String) (self : Option Handle) :
    o.bare.checkSiblings p name self = o.checkSiblings p name self := by
  unfold checkSiblings
  refine item_bind_bare fun i => ?_
  simp only [Item.children_bare, isNamed_bare, relativePath_bare]

@[simp] theorem checkName_bare (o : Outline) (i : Item) (name : String) :
    o.bare.checkName h i name = o.checkName h i name := by
  unfold checkName
  simp only [checkSiblings_bare]

/-! ### Steps of edits -/

theorem item_bind_map_bare {g : β → γ} {f k : Item → Except Violation β}
    (hfk : ∀ i, (f i.bare).map g = (k i).map g) :
    (o.bare.item h >>= f).map g = (o.item h >>= k).map g := by
  rw [item_bare]
  cases o.item h with
  | error v => rfl
  | ok i => exact hfk i

theorem bind_map_congr {ε α : Type} {g : β → γ} {x : Except ε α} {f k : α → Except ε β}
    (hfk : ∀ a, (f a).map g = (k a).map g) : (x >>= f).map g = (x >>= k).map g := by
  cases x with
  | error e => rfl
  | ok a => exact hfk a

theorem ite_map_congr {ε : Type} {c : Prop} [Decidable c] {g : β → γ} {x x' y y' : Except ε β}
    (hx : x.map g = x'.map g) (hy : y.map g = y'.map g) :
    (if c then x else y).map g = (if c then x' else y').map g := by
  split
  · exact hx
  · exact hy

theorem update_bare {f : Item → Item} (hf : ∀ i, (f i.bare).bare = (f i).bare) (o : Outline)
    (h : Handle) : (o.bare.update h f).map bare = (o.update h f).map bare := by
  unfold update
  rw [item_bare]
  cases o.item h with
  | error v => rfl
  | ok i => exact congrArg Except.ok (set_bare (hf i) o h)

theorem allocate_bare (o : Outline) (i : Item) :
    (o.bare.allocate i).map (Prod.map id bare) = (o.allocate i).map (Prod.map id bare) := by
  unfold allocate
  simp only [show o.bare.free = o.free from rfl, size_bare]
  cases o.free with
  | nil =>
      refine ite_map_congr (congrArg Except.ok (Prod.ext rfl ?_)) rfl
      refine ext_bare (fun n => ?_) rfl rfl
      simp only [slot_bare, Array.getElem?_push, size_bare]
      split
      · rfl
      · rw [Slot.map_bare_bare]
  | cons n free =>
      have hgen := generation?_bare o n
      unfold generation? at hgen
      simp only [hgen]
      refine congrArg Except.ok (Prod.ext rfl ?_)
      have hset := set_bare (i := i) rfl o ⟨n, (o.slots[n]?.map Slot.generation).getD 0⟩
      exact congrArg (fun o : Outline => { o with free }) hset

theorem release_bare (o : Outline) (h : Handle) :
    (o.bare.release h).map (Prod.map Item.bare bare) =
      (o.release h).map (Prod.map Item.bare bare) := by
  unfold release
  rw [slot_bare]
  cases hs : o.slots[h.index]? with
  | none => rfl
  | some slot =>
      obtain ⟨g, k⟩ := slot
      cases k with
      | none => rfl
      | some i =>
          refine congrArg Except.ok (Prod.ext rfl (ext_bare (fun n => ?_) rfl rfl))
          simp only [slot_bare, Array.getElem?_modify]
          split
          · cases o.slots[n]? <;> rfl
          · rw [Slot.map_bare_bare]

theorem attach_bare (o : Outline) (index : Nat) :
    (o.bare.attach p index h).map bare = (o.attach p index h).map bare := by
  unfold attach
  refine item_bind_map_bare fun i => ?_
  simp only [throw_bind, Item.parent_bare, Item.name_bare]
  refine ite_map_congr (item_bind_map_bare fun above => ?_) rfl
  simp only [Item.children_bare, checkSiblings_bare]
  refine ite_map_congr rfl (bind_map_congr fun _ => ite_map_congr ?_ rfl)
  exact congrArg Except.ok (set_bare (by rfl) o p)

theorem moveChild_bare (o : Outline) (start stop : Nat) :
    (o.bare.moveChild p start stop).map bare = (o.moveChild p start stop).map bare := by
  unfold moveChild
  refine item_bind_map_bare fun above => ?_
  simp only [throw_bind, Item.children_bare]
  split
  · rfl
  · exact ite_map_congr (congrArg Except.ok (set_bare (by rfl) o p)) rfl

theorem arrange_bare (o : Outline) (order : List Handle) :
    (o.bare.arrange p order).map bare = (o.arrange p order).map bare := by
  unfold arrange
  refine item_bind_map_bare fun above => ?_
  simp only [throw_bind, Item.children_bare, relativePath_bare]
  exact ite_map_congr (congrArg Except.ok (set_bare (by rfl) o p)) (bind_map_congr fun _ => rfl)

theorem detach_bare (o : Outline) (h : Handle) :
    (o.bare.detach h).map (Prod.map id bare) = (o.detach h).map (Prod.map id bare) := by
  unfold detach
  refine item_bind_map_bare fun i => ?_
  simp only [throw_bind, Item.parent_bare, relativePath_bare]
  split
  · rfl
  · refine bind_map_congr fun path => item_bind_map_bare fun above => ?_
    refine ite_map_congr (congrArg Except.ok (Prod.ext rfl ?_)) rfl
    exact set_bare (by rfl) o _

end Outline

/-! ### Programs -/

section
variable {ε ε' α β γ : Type}

/-- Whether a program does the same in an outline and in the one without memory and marks.  It gives
the same result, up to what `g` forgets, and leaves outlines that differ in memory and marks only. -/
def Blind (g : α → β) (x : ExceptT ε (StateM Outline) α) : Prop :=
  ∀ o, (exec x o.bare).1.map g = (exec x o).1.map g ∧ (exec x o.bare).2.bare = (exec x o).2.bare

namespace Blind

variable {g : α → α} {g' : β → γ} {x : ExceptT ε (StateM Outline) α} {o o' : Outline}

/-- A blind program does the same in all outlines that differ in memory and marks only. -/
theorem congr {y : ExceptT ε (StateM Outline) β} (hy : Blind g' y) (ho : o'.bare = o.bare) :
    (exec y o').1.map g' = (exec y o).1.map g' ∧ (exec y o').2.bare = (exec y o).2.bare := by
  rw [← (hy o').1, ← (hy o').2, ho]
  exact hy o

theorem pure (b : β) : Blind g' (Pure.pure b : ExceptT ε (StateM Outline) β) :=
  fun o => ⟨rfl, o.bare_bare⟩

theorem throw (e : ε) : Blind g' (MonadExcept.throw e : ExceptT ε (StateM Outline) β) :=
  fun o => ⟨rfl, o.bare_bare⟩

theorem get : Blind Outline.bare (MonadState.get : ExceptT ε (StateM Outline) Outline) :=
  fun o => ⟨congrArg Except.ok o.bare_bare, o.bare_bare⟩

/-- What follows a program may depend on what `g` keeps of its result. -/
theorem bind {f : α → ExceptT ε (StateM Outline) β} (hx : Blind g x) (hg : ∀ a, f (g a) = f a)
    (hf : ∀ a, Blind g' (f a)) : Blind g' (x >>= f) := by
  intro o
  obtain ⟨hr, hs⟩ := hx o
  rw [exec_bind, exec_bind]
  rcases h₁ : exec x o.bare with ⟨e₁ | a₁, o₁⟩ <;> rcases h₂ : exec x o with ⟨e₂ | a₂, o₂⟩ <;>
    rw [h₁, h₂] at hr hs
  · exact ⟨congrArg Except.error (Except.error.inj hr), hs⟩
  · cases hr
  · cases hr
  · have hsame : f a₁ = f a₂ := by rw [← hg a₁, ← hg a₂, show g a₁ = g a₂ from Except.ok.inj hr]
    simp only [hsame]
    exact (hf a₂).congr hs

theorem seq {f : α → ExceptT ε (StateM Outline) β} (hx : Blind id x) (hf : ∀ a, Blind g' (f a)) :
    Blind g' (x >>= f) := hx.bind (fun _ => rfl) hf

theorem adapt (hx : Blind g x) (f : ε → ε') : Blind g (x.adapt f) := by
  intro o
  obtain ⟨hr, hs⟩ := hx o
  rw [exec_adapt, exec_adapt]
  refine ⟨?_, hs⟩
  cases h₁ : (exec x o.bare).1 <;> cases h₂ : (exec x o).1 <;> rw [h₁, h₂] at hr
  · exact congrArg (Except.error ∘ f) (Except.error.inj hr)
  · cases hr
  · cases hr
  · exact congrArg Except.ok (Except.ok.inj hr)

theorem forM {f : γ → ExceptT ε (StateM Outline) PUnit} (hf : ∀ c, Blind id (f c)) (l : List γ) :
    Blind id (l.forM f) := by
  induction l with
  | nil => exact pure _
  | cons c l ih => exact (hf c).seq fun _ => ih

theorem read {f : Outline → Except Violation β} (hf : ∀ o : Outline, (f o.bare).map g' = (f o).map g') :
    Blind g' (Edit.read f) := fun o => ⟨hf o, o.bare_bare⟩

theorem read_of_eq {f : Outline → Except Violation β} (hf : ∀ o : Outline, f o.bare = f o) :
    Blind g' (Edit.read f) := .read fun o => by rw [hf]

theorem change {f : Outline → Except Violation Outline}
    (hf : ∀ o : Outline, (f o.bare).map Outline.bare = (f o).map Outline.bare) :
    Blind (id : Unit → Unit) (Edit.change f) := by
  intro o
  have h := hf o
  unfold Edit.change
  rw [exec_mk, exec_mk]
  cases h₁ : f o.bare <;> cases h₂ : f o <;> rw [h₁, h₂] at h
  · exact ⟨congrArg Except.error (Except.error.inj h), o.bare_bare⟩
  · cases h
  · cases h
  · exact ⟨rfl, Except.ok.inj h⟩

theorem changeWith {f : Outline → Except Violation (β × Outline)}
    (hf : ∀ o : Outline, (f o.bare).map (Prod.map g' Outline.bare) =
      (f o).map (Prod.map g' Outline.bare)) : Blind g' (Edit.changeWith f) := by
  intro o
  have h := hf o
  unfold Edit.changeWith
  rw [exec_mk, exec_mk]
  cases h₁ : f o.bare <;> cases h₂ : f o <;> rw [h₁, h₂] at h
  · exact ⟨congrArg Except.error (Except.error.inj h), o.bare_bare⟩
  · cases h
  · cases h
  · obtain ⟨hb, ho⟩ := Prod.mk.inj (Except.ok.inj h)
    exact ⟨congrArg Except.ok hb, ho⟩

end Blind

end

/-! ### Edits -/

namespace Edit

open Outline

variable {h p : Handle}

theorem blind_item (h : Handle) : Blind Item.bare (read (·.item h)) := by
  refine .read fun o => ?_
  rw [item_bare]
  cases o.item h <;> rfl

theorem blind_update (f : Item → Item) (hf : ∀ i, (f i.bare).bare = (f i).bare) (h : Handle) :
    Blind id (change (·.update h f)) := .change fun o => update_bare hf o h

theorem blind_markUp (steps : Nat) (h : Handle) : Blind id (markUp steps h) := by
  induction steps generalizing h with
  | zero => exact .pure ()
  | succ steps ih =>
      unfold markUp
      refine (blind_item h).bind (fun _ => rfl) fun i => ?_
      refine (blind_update _ (by intro; rfl) h).seq fun _ => ?_
      split
      · exact .pure ()
      · exact ih _

theorem blind_markDirty (h : Handle) : Blind id (markDirty h) :=
  Blind.get.bind (fun o => by rw [size_bare]) fun o => blind_markUp o.slots.size h

theorem blind_create (p : Handle) (kind : Kind) (name : String) :
    Blind id (create p kind name) := by
  refine .changeWith fun o => ?_
  unfold Outline.create
  rw [checkPlacement_bare]
  exact bind_map_congr fun _ => allocate_bare o _

theorem blind_insert (p : Handle) (index : Nat) (h : Handle) : Blind id (insert p index h) :=
  Blind.seq (.change fun o => attach_bare o index) fun _ => blind_markDirty h

theorem blind_add (p : Handle) (kind : Kind) (name : String) : Blind id (add p kind name) := by
  refine (blind_create p kind name).seq fun h => ?_
  refine (blind_item p).bind (fun _ => rfl) fun above => ?_
  exact (blind_insert p _ h).seq fun _ => .pure h

theorem blind_keepFile (document : SharedTree) (h : Handle) : Blind id (keepFile document h) := by
  refine (blind_item h).bind (fun _ => rfl) fun i => ?_
  split
  · refine Blind.seq (.read_of_eq fun o => diskNames_bare o h) fun names => ?_
    split
    · exact .pure ()
    · exact blind_update _ (by intro; rfl) h
  · exact .pure ()

theorem blind_keepContents (h : Handle) : Blind id (keepContents h) := by
  refine Blind.get.bind (fun o => by rw [document_bare]) fun o => ?_
  split
  · exact .pure ()
  · refine Blind.seq (.read_of_eq fun o => walk_bare o h) fun walked => ?_
    refine .forM (fun q => ?_) walked
    exact blind_keepFile _ q.1

theorem blind_rename (h : Handle) (name : String) : Blind id (rename h name) := by
  have named : Blind id (change (·.update h fun i => { i with name }) >>= fun _ => markDirty h) :=
    (blind_update _ (by intro; rfl) h).seq fun _ => blind_markDirty h
  refine (blind_item h).bind (fun _ => rfl) fun i => ?_
  refine Blind.seq (.read_of_eq fun o => checkName_bare o i name) fun _ => ?_
  dsimp only
  split
  · exact (blind_keepContents h).seq fun _ => named
  · exact named

theorem blind_releasePending (steps : Nat) (pending : List Handle) :
    Blind id (releasePending steps pending) := by
  induction steps generalizing pending with
  | zero => cases pending <;> exact .pure ()
  | succ steps ih =>
      cases pending with
      | nil => exact .pure ()
      | cons h pending =>
          unfold releasePending
          refine Blind.bind (g := Item.bare) (.changeWith fun o => release_bare o h) (fun _ => rfl)
            fun i => ih _

theorem blind_remove (h : Handle) : Blind id (remove h) := by
  refine Blind.seq (.changeWith fun o => detach_bare o h) fun p => ?_
  refine Blind.get.bind (fun o => by rw [size_bare]) fun o => ?_
  exact (blind_releasePending _ _).seq fun _ => blind_markDirty p

theorem blind_move (p : Handle) (start stop : Nat) : Blind id (move p start stop) :=
  Blind.seq (.change fun o => moveChild_bare o start stop) fun _ => blind_markDirty p

theorem blind_reorder (p : Handle) (order : List Handle) : Blind id (reorder p order) :=
  Blind.seq (.change fun o => arrange_bare o order) fun _ => blind_markDirty p

theorem blind_setContents (h : Handle) (c : Bytes) : Blind id (setContents h c) := by
  refine ((blind_item h).adapt _).bind (fun _ => rfl) fun i => ?_
  split
  · refine Blind.adapt (Blind.seq (blind_update _ ?_ h) fun _ => blind_markDirty h) _
    exact fun _ => rfl
  · exact .throw _

end Edit

/-- Edits do not look at memory and marks. -/
theorem EditCall.blind (c : EditCall) : Blind id c.edit := by
  cases c with
  | add parent kind name =>
      exact ((Edit.blind_add parent kind name).seq fun _ => .pure ()).adapt _
  | insertNew parent kind name below index =>
      exact ((Edit.blind_create parent kind name).seq fun h =>
        Edit.blind_insert below index h).adapt _
  | setContents item contents => exact Edit.blind_setContents item contents
  | markDirty item => exact (Edit.blind_markDirty item).adapt _
  | rename item name => exact (Edit.blind_rename item name).adapt _
  | remove item => exact (Edit.blind_remove item).adapt _
  | move parent start stop => exact (Edit.blind_move parent start stop).adapt _
  | reorder parent order => exact (Edit.blind_reorder parent order).adapt _

end PackageOutline
