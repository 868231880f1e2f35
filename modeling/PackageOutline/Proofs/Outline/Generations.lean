import PackageOutline.Proofs.Exec
import PackageOutline.Proofs.Outline.Making
import PackageOutline.Proofs.Outline.WellFormed

/-! # Generations of slots

`Outline.generation?` is the generation that a slot has now.  Only a release advances it, so a handle
that is behind the generation of its slot (`Outline.Past`) leads nowhere and never will again, as long
as generations do not come round.

* `generation?_allocate`, `generation?_release`: what happens to generations.
* `Outline.Alike f`: outlines with the same slots and generations whose items look alike through `f`.
  Marking, filling memory and keeping contents change nothing else (`Edit.markDirty_alike`,
  `Edit.keepContents_alike`, `Workspace.image_alike`, `Workspace.refresh_alike`). -/

namespace PackageOutline

namespace Outline

variable {β γ : Type} {o o' o'' : Outline} {h x : Handle} {i j : Item} {n : Nat}

/-- The generation of a slot. -/
def generation? (o : Outline) (n : Nat) : Option UInt32 := o.slots[n]?.map Slot.generation

/-- Whether the slot of a handle has gone on to a later generation. -/
def Past (o : Outline) (h : Handle) : Prop := ∃ g, o.generation? h.index = some g ∧ h.generation < g

theorem generation?_of_get? (hi : o.get? h = some i) :
    o.generation? h.index = some h.generation := by
  rw [generation?, get?_eq_some_iff.mp hi, Option.map_some]

@[simp] theorem generation?_set (o : Outline) (h : Handle) (i : Item) (n : Nat) :
    (o.set h i).generation? n = o.generation? n := by
  unfold generation? set
  rw [Array.getElem?_modify]
  split <;> cases o.slots[n]? <;> rfl

theorem generation?_allocate (e : o.FreeExact) (ha : o.allocate i = .ok (h, o')) (n : Nat) :
    o'.generation? n = if n = h.index then some h.generation else o.generation? n := by
  rcases e.allocate_eq_ok ha with ⟨free, -, hs, rfl⟩ | ⟨-, rfl, rfl⟩
  · show (o.set h i).generation? n = _
    rw [generation?_set]
    split
    · rename_i hn
      rw [hn, generation?, hs, Option.map_some]
    · rfl
  · unfold generation?
    simp only [Array.getElem?_push]
    split <;> rfl

theorem FreeExact.generation_of_allocate (e : o.FreeExact) (ha : o.allocate i = .ok (h, o')) :
    o.generation? h.index = some h.generation ∨
      o.generation? h.index = none ∧ h.generation = 0 := by
  rcases e.allocate_eq_ok ha with ⟨free, -, hs, -⟩ | ⟨-, rfl, -⟩
  · exact Or.inl (by rw [generation?, hs, Option.map_some])
  · exact Or.inr ⟨by simp [generation?], rfl⟩

theorem generation?_release (hr : o.release h = .ok (i, o')) (n : Nat) :
    o'.generation? n =
      if n = h.index then (o.generation? n).map (· + 1) else o.generation? n := by
  rw [release_eq_ok hr]
  unfold generation? vacate
  simp only [Array.getElem?_modify, eq_comm (a := n)]
  split <;> cases o.slots[n]? <;> rfl

theorem get?_of_past (hp : o.Past h) : o.get? h = none := by
  cases hi : o.get? h with
  | none => rfl
  | some i =>
      obtain ⟨g, hg, hlt⟩ := hp
      rw [generation?_of_get? hi] at hg
      rw [Option.some.inj hg] at hlt
      exact absurd hlt (UInt32.lt_irrefl g)

theorem past_of_release (hi : o.get? h = some i) (hr : o.release h = .ok (i, o'))
    (hh : h.generation.toNat ≤ n) (hn : n + 1 < 2 ^ 32) (hx : x = h ∨ o.Past x) : o'.Past x := by
  have hgen := generation?_release hr
  have hself : o.generation? h.index = some h.generation := generation?_of_get? hi
  have hnext : (h.generation + 1).toNat = h.generation.toNat + 1 := by
    rw [UInt32.toNat_add]
    exact Nat.mod_eq_of_lt (by simpa using by omega)
  by_cases hxh : x.index = h.index
  · refine ⟨h.generation + 1, by rw [hgen, if_pos hxh, hxh, hself, Option.map_some], ?_⟩
    rw [UInt32.lt_iff_toNat_lt]
    rcases hx with rfl | ⟨g, hg, hlt⟩
    · omega
    · rw [hxh, hself] at hg
      obtain rfl := Option.some.inj hg
      rw [UInt32.lt_iff_toNat_lt] at hlt
      omega
  · rcases hx with rfl | ⟨g, hg, hlt⟩
    · exact absurd rfl hxh
    · exact ⟨g, by rw [hgen, if_neg hxh, hg], hlt⟩

/-! ### Outlines with the same slots -/

/-- The outlines have the same slots with the same generations, and their items look alike through
`f`. -/
structure Alike (f : Item → β) (o o' : Outline) : Prop where
  agree : AgreeOn f o o'
  generations : ∀ n, o'.generation? n = o.generation? n

instance (f : Item → β) : IsPreorder Outline (Alike f) where
  refl o := ⟨.refl f o, fun _ => rfl⟩
  trans _ _ _ a b := ⟨a.agree.trans b.agree, fun n => (b.generations n).trans (a.generations n)⟩

theorem Alike.comp {f : Item → β} (a : Alike f o o') {g : Item → γ} (k : β → γ)
    (hk : ∀ i, g i = k (f i)) : Alike g o o' := ⟨a.agree.comp k hk, a.generations⟩

theorem Alike.set {f : Item → β} (hi : o.get? h = some i) (hj : f j = f i) :
    Alike f o (o.set h j) := ⟨.set hi hj, generation?_set o h j⟩

theorem Alike.past {f : Item → β} (a : Alike f o o') (hp : o.Past h) : o'.Past h := by
  obtain ⟨g, hg, hlt⟩ := hp
  exact ⟨g, (a.generations _).trans hg, hlt⟩

/-- What an item is apart from its memory and contents. -/
def look (i : Item) : (Kind × String × Option Handle × List Handle) × Bool := (i.frame, i.dirty)

theorem Alike.frame (a : Alike look o o') : Alike Item.frame o o' := a.comp Prod.fst fun _ => rfl

/-- Nothing but memory, contents and marks is different, and nothing is dirty that was not. -/
structure Faded (o o' : Outline) : Prop where
  alike : Alike Item.frame o o'
  less : ∀ {x j}, o'.get? x = some j → j.dirty = true → ∃ i, o.get? x = some i ∧ i.dirty = true

instance : IsPreorder Outline Faded where
  refl o := ⟨refl o, fun hj hd => ⟨_, hj, hd⟩⟩
  trans _ _ _ a b := by
    refine ⟨IsTrans.trans _ _ _ a.alike b.alike, fun hj hd => ?_⟩
    obtain ⟨k, hk, hkd⟩ := b.less hj hd
    exact a.less hk hkd

theorem Alike.faded (a : Alike look o o') : Faded o o' := by
  refine ⟨a.frame, fun {x j} hj hd => ?_⟩
  obtain ⟨i, hi, hl⟩ := a.agree.symm.get?_eq_some hj
  exact ⟨i, hi, (Prod.mk.inj hl).2.trans hd⟩

theorem Faded.set (hi : o.get? h = some i) (hj : j.frame = i.frame)
    (hd : j.dirty = true → i.dirty = true) : Faded o (o.set h j) := by
  refine ⟨.set hi hj, fun {x k} hk hkd => ?_⟩
  rcases of_get?_set hi hk with ⟨rfl, rfl⟩ | ⟨-, hk⟩
  · exact ⟨i, hi, hd hkd⟩
  · exact ⟨k, hk, hkd⟩

end Outline

/-! ### Programs that leave the slots alone -/

/-- Whether a property goes from one state to another. -/
def Preserves {σ : Type} (P : σ → Prop) (s s' : σ) : Prop := P s → P s'

instance {σ : Type} (P : σ → Prop) : IsPreorder σ (Preserves P) where
  refl _ := id
  trans _ _ _ h h' hs := h' (h hs)

theorem exec_bind_pure_snd {ε σ α β : Type} (x : ExceptT ε (StateM σ) α) (b : β) (s : σ) :
    (exec (x >>= fun _ => pure b) s).2 = (exec x s).2 := by
  rw [exec_bind]
  rcases exec x s with ⟨e | a, s'⟩ <;> rfl

theorem Always.mono {ε σ α : Type} {R R' : σ → σ → Prop} {x : ExceptT ε (StateM σ) α}
    (hx : Always R x) (hR : ∀ {s s'}, R s s' → R' s s') : Always R' x :=
  fun _ _ _ hrun => hR (hx hrun)

theorem Always.foldlM {ε σ β γ : Type} {R : σ → σ → Prop} [IsPreorder σ R]
    {step : β → γ → ExceptT ε (StateM σ) β} {l : List γ}
    (hf : ∀ b, ∀ c ∈ l, Always R (step b c)) (b : β) : Always R (l.foldlM step b) := by
  induction l generalizing b with
  | nil => exact .pure b
  | cons c l ih =>
      rw [List.foldlM_cons]
      refine (hf b c List.mem_cons_self).bind fun b' => ih (fun b d hd => ?_) b'
      exact hf b d (List.mem_cons_of_mem _ hd)

theorem Always.mapM {ε σ β γ : Type} {R : σ → σ → Prop} [IsPreorder σ R]
    {f : γ → ExceptT ε (StateM σ) β} (hf : ∀ c, Always R (f c)) (l : List γ) :
    Always R (l.mapM f) := by
  induction l with
  | nil => exact .pure []
  | cons c l ih =>
      rw [List.mapM_cons]
      exact (hf c).bind fun b => ih.bind fun bs => .pure (b :: bs)

namespace Edit

open Outline

variable {α β : Type} {h : Handle} {R : Outline → Outline → Prop} [IsPreorder Outline R]

theorem always_read (f : Outline → Except Violation α) : Always R (read f) := by
  intro o r o' hx
  rw [exec_read] at hx
  obtain ⟨-, rfl⟩ := Prod.mk.inj hx
  exact refl o

theorem always_change {f : Outline → Except Violation Outline}
    (hf : ∀ {o o'}, f o = .ok o' → R o o') : Always R (change f) := by
  intro o r o' hx
  unfold change at hx
  rw [exec_mk] at hx
  split at hx
  · rename_i h₁
    obtain ⟨-, rfl⟩ := Prod.mk.inj hx
    exact hf h₁
  · obtain ⟨-, rfl⟩ := Prod.mk.inj hx
    exact refl o

theorem always_changeWith {f : Outline → Except Violation (α × Outline)}
    (hf : ∀ {o a o'}, f o = .ok (a, o') → R o o') : Always R (changeWith f) := by
  intro o r o' hx
  unfold changeWith at hx
  rw [exec_mk] at hx
  split at hx
  · rename_i h₁
    obtain ⟨-, rfl⟩ := Prod.mk.inj hx
    exact hf h₁
  · obtain ⟨-, rfl⟩ := Prod.mk.inj hx
    exact refl o

theorem update_alike {f : Item → β} (u : Item → Item) (hu : ∀ i, f (u i) = f i) (h : Handle) :
    Always (Alike f) (change (·.update h u)) := by
  refine always_change fun hup => ?_
  obtain ⟨i, hi, rfl⟩ := update_eq_ok_iff.mp hup
  exact .set hi (hu i)

theorem markUp_alike (steps : Nat) (h : Handle) : Always (Alike Item.frame) (markUp steps h) := by
  induction steps generalizing h with
  | zero => exact .pure ()
  | succ steps ih =>
      unfold markUp
      refine (always_read _).bind fun i => Always.bind (update_alike _ ?_ h) fun _ => ?_
      · exact fun _ => rfl
      · split
        · exact .pure ()
        · exact ih _

/-- Marking changes marks and memory only. -/
theorem markDirty_alike (h : Handle) : Always (Alike Item.frame) (markDirty h) :=
  Always.get.bind fun o => markUp_alike o.slots.size h

/-- Keeping contents changes contents only. -/
theorem keepContents_alike (h : Handle) : Always (Alike look) (keepContents h) := by
  refine Always.get.bind fun o => ?_
  split
  · exact .pure ()
  · refine (always_read _).bind fun walked => ?_
    refine Always.forM fun q _ => ?_
    refine (always_read _).bind fun i => ?_
    split
    · refine (always_read _).bind fun names => ?_
      split
      · exact .pure ()
      · refine update_alike _ ?_ q.1
        exact fun _ => rfl
    · exact .pure ()

end Edit

namespace Workspace

open Outline (look)

variable {α β : Type} {held made : List SharedTree}

/-- Workspaces whose outlines look alike. -/
def Alike (f : Item → β) (W W' : Workspace) : Prop := Outline.Alike f W.outline W'.outline

instance (f : Item → β) : IsPreorder Workspace (Alike f) where
  refl W := refl (r := Outline.Alike f) W.outline
  trans _ _ _ a b := IsTrans.trans (r := Outline.Alike f) _ _ _ a b

/-- Workspaces whose outlines differ in memory, contents and marks that are gone. -/
def Faded (W W' : Workspace) : Prop := Outline.Faded W.outline W'.outline

instance : IsPreorder Workspace Faded where
  refl W := refl (r := Outline.Faded) W.outline
  trans _ _ _ a b := IsTrans.trans (r := Outline.Faded) _ _ _ a b

theorem always_read {R : Workspace → Workspace → Prop} [IsPreorder Workspace R]
    (f : Outline → Except Violation α) : Always R (read f) := by
  intro W r W' hx
  rw [exec_read] at hx
  obtain ⟨-, rfl⟩ := Prod.mk.inj hx
  exact refl W

theorem note_alike (f : Item → β) (level : Level) (origin : Origin) (text : String) :
    Always (Alike f) (note level origin text) := by
  intro W r W' hx
  obtain ⟨-, rfl⟩ := Prod.mk.inj hx
  exact refl (r := Outline.Alike f) W.outline

theorem make_alike (f : Item → β) (t : ObjectId → SharedTree) : Always (Alike f) (make t) := by
  intro W r W' hx
  obtain ⟨-, rfl⟩ := Prod.mk.inj hx
  exact refl (r := Outline.Alike f) W.outline

theorem always_updateItem {R : Workspace → Workspace → Prop} [IsPreorder Workspace R]
    {u : Item → Item} {h : Handle} (hu : ∀ {W : Workspace} {i : Item},
      W.outline.get? h = some i → R W { W with outline := W.outline.set h (u i) }) :
    Always R (updateItem h u) := by
  intro W r W' hx
  unfold updateItem at hx
  rw [exec_mk] at hx
  split at hx
  · rename_i o' ho
    obtain ⟨i, hi, rfl⟩ := Outline.update_eq_ok_iff.mp ho
    obtain ⟨-, rfl⟩ := Prod.mk.inj hx
    exact hu hi
  · obtain ⟨-, rfl⟩ := Prod.mk.inj hx
    exact refl W

theorem fileImage_alike (f : Item → β) (h : Handle) : Always (Alike f) (fileImage h) := by
  refine (always_read _).bind fun i => ?_
  split
  · exact make_alike f _
  · refine (always_read _).bind fun names => Always.get.bind fun W => ?_
    split
    · exact .pure _
    · exact .throw _

theorem assemble_alike (f : Item → β) (h : Handle) (parts : List (Handle × SharedTree)) :
    Always (Alike f) (assemble h parts) := by
  refine Always.bind (Always.mapM (fun part => ?_) parts) fun contributions => ?_
  · exact (always_read _).bind fun i => .pure _
  · dsimp only
    split
    · exact (always_read _).bind fun names => .throw _
    · exact make_alike f _

section
variable {R : Workspace → Workspace → Prop} [IsPreorder Workspace R] {levels : Nat} {h : Handle}

theorem always_remembering {mark : Bool → Bool} {x : Work SharedTree} (hx : Always R x)
    (hset : ∀ {W : Workspace} {i : Item} {t : SharedTree}, W.outline.get? h = some i →
      R W { W with outline := W.outline.set h { i with dirty := mark i.dirty, cache := some t } }) :
    Always R (remembering h mark x) :=
  hx.bind fun image => (always_updateItem fun hi => hset hi).bind fun _ => .pure image

theorem always_imageParts (hask : ∀ {made} c, Always R (imageAt held levels made c))
    (cs : List Handle) : Always R (imageParts held levels made cs) :=
  Always.foldlM (fun _ c _ => (hask c).bind fun _ => .pure _) []

theorem always_refreshParts (hask : ∀ {made} c, Always R (imageAt held levels made c))
    (hrefresh : ∀ {made} c, Always R (refreshAt held levels made c)) (cs : List Handle) :
    Always R (refreshParts held levels made cs) := by
  refine Always.foldlM (fun gathered c _ => (hrefresh c).bind fun part => ?_) _
  split
  · exact .pure _
  · exact (hask c).bind fun _ => .pure _

end

theorem imageAt_alike (levels : Nat) (h : Handle) :
    Always (Alike look) (imageAt held levels made h) := by
  induction levels generalizing made h with
  | zero => exact .throw _
  | succ levels ih =>
      rw [imageAt_succ]
      refine (always_read _).bind fun i => ?_
      split
      · exact (note_alike _ _ _ _).bind fun _ => .pure _
      · refine always_remembering ?_ fun hi => Outline.Alike.set hi (by rfl)
        split
        · exact fileImage_alike look h
        · exact (always_imageParts ih i.children).bind fun parts => assemble_alike look h parts

/-- Computing an image fills memory only. -/
theorem image_alike (h : Handle) : Always (Alike look) (image held h) :=
  Always.get.bind fun _ => imageAt_alike _ h

theorem refreshAt_faded (levels : Nat) (h : Handle) :
    Always Faded (refreshAt held levels made h) := by
  induction levels generalizing made h with
  | zero => exact .throw _
  | succ levels ih =>
      rw [refreshAt_succ]
      refine (always_read _).bind fun i => ?_
      split
      · exact .pure none
      · refine Always.bind (always_remembering ?_ fun hi =>
          Outline.Faded.set hi (by rfl) (by simp)) fun image => .pure (some image)
        split
        · exact (fileImage_alike look h).mono Outline.Alike.faded
        · have hask : ∀ {made} c, Always Faded (imageAt held levels made c) := fun c =>
            (imageAt_alike levels c).mono Outline.Alike.faded
          refine (always_refreshParts hask ih i.children).bind fun gathered => ?_
          refine Always.get.bind fun W => ?_
          refine ((note_alike look _ _ _).mono Outline.Alike.faded).bind fun _ => ?_
          exact (assemble_alike look h gathered.1).mono Outline.Alike.faded

/-- Refreshing takes marks away and fills memory. -/
theorem refresh_faded (h : Handle) : Always Faded (refresh held h) :=
  Always.get.bind fun _ => refreshAt_faded _ h

end Workspace

end PackageOutline
