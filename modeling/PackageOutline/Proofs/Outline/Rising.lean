import PackageOutline.Proofs.Outline.Calls

/-! # Marks of attached items

An item that is made is clean, marks climb from an item to all above it, and refreshing goes down to
all dirty items before it takes a mark away.  So the parent of a dirty child is dirty
(`Outline.DirtyAbove`), whatever is called, with one exception: attaching an item marks nothing, and
an item may have been marked while it was not attached.  A call is *calm* (`Outline.isCalm`) when it
does not attach a dirty item below a clean one.

* `CallRun.dirty_line`: on runs of calm calls, a dirty item that the root leads to has a dirty line.
* `attach_breaks`: an accepted call that is not calm leaves a dirty child of a clean item. -/

namespace PackageOutline

section
variable {ε σ β γ : Type}

/-- A fold whose steps keep an invariant of the elements that are done, and leave a part of it when
they fail. -/
theorem exec_foldlM_keeps {step : β → γ → ExceptT ε (StateM σ) β} (I : List γ → σ → Prop)
    (J : σ → Prop) (weaken : ∀ {done s}, I done s → J s) (done : List γ) {l : List γ}
    (hstep : ∀ {done b c s r s'}, c ∈ l → I done s → exec (step b c) s = (r, s') →
      J s' ∧ ∀ b', r = .ok b' → I (done ++ [c]) s')
    {b : β} {s s' : σ} {r : Except ε β} (hs : I done s)
    (hx : exec (l.foldlM step b) s = (r, s')) : J s' ∧ ∀ b', r = .ok b' → I (done ++ l) s' := by
  induction l generalizing done b s with
  | nil =>
      obtain ⟨-, rfl⟩ := Prod.mk.inj hx
      exact ⟨weaken hs, fun _ _ => by rwa [List.append_nil]⟩
  | cons c l ih =>
      rw [List.foldlM_cons] at hx
      rcases exec_bind_cases hx with ⟨e, hc, rfl⟩ | ⟨b₁, s₁, hc, hrest⟩
      · exact ⟨(hstep List.mem_cons_self hs hc).1, fun _ hb => by cases hb⟩
      · have hs₁ := (hstep List.mem_cons_self hs hc).2 b₁ rfl
        obtain ⟨hj, hi⟩ := ih _ (fun hmem => hstep (List.mem_cons_of_mem _ hmem)) hs₁ hrest
        refine ⟨hj, fun b' hb' => ?_⟩
        rw [← List.singleton_append, ← List.append_assoc]
        exact hi b' hb'

end

namespace Outline

variable {o o₁ o' s s' : Outline} {h p : Handle} {i j k : Item} {n : Nat}

/-- The parents of dirty children are dirty. -/
def DirtyAbove (o : Outline) : Prop :=
  ∀ ⦃p j c i⦄, o.get? p = some j → c ∈ j.children → o.get? c = some i → i.dirty = true →
    j.dirty = true

/-- The parents of dirty children are dirty, except for an item and its parent. -/
def DirtyAboveBut (h : Handle) (o : Outline) : Prop :=
  ∀ ⦃p j c i⦄, p ≠ h → c ≠ h → o.get? p = some j → c ∈ j.children → o.get? c = some i →
    i.dirty = true → j.dirty = true

theorem DirtyAbove.but (d : o.DirtyAbove) (h : Handle) : o.DirtyAboveBut h :=
  fun _ _ _ _ _ _ hj hc hi hd => d hj hc hi hd

theorem DirtyAboveBut.of_none (d : o.DirtyAboveBut h) (hnone : o.get? h = none) :
    o.DirtyAbove := by
  intro p j c i hj hc hi hd
  refine d ?_ ?_ hj hc hi hd
  · rintro rfl
    rw [hnone] at hj
    cases hj
  · rintro rfl
    rw [hnone] at hi
    cases hi

theorem DirtyAbove.congr (ag : AgreeOn (fun i : Item => (i.children, i.dirty)) o o')
    (d : o.DirtyAbove) : o'.DirtyAbove := by
  intro p j c i hj hc hi hd
  obtain ⟨j₀, hj₀, hjf⟩ := ag.symm.get?_eq_some hj
  obtain ⟨i₀, hi₀, hif⟩ := ag.symm.get?_eq_some hi
  obtain ⟨hjc, hjd⟩ := Prod.mk.inj hjf
  obtain ⟨-, hid⟩ := Prod.mk.inj hif
  exact hjd ▸ d hj₀ (hjc ▸ hc) hi₀ (hid.trans hd)

theorem DirtyAbove.look (d : o.DirtyAbove) (a : Alike look o o') : o'.DirtyAbove :=
  d.congr (a.agree.comp (fun f => (f.1.2.2.2, f.2)) fun _ => rfl)

/-! ### Marking -/

theorem DirtyAboveBut.mark (d : o.DirtyAboveBut h) (hi : o.get? h = some i) :
    ∀ ⦃q j c k⦄, (o.set h i.marked).get? q = some j → c ∈ j.children → c ≠ h →
      (o.set h i.marked).get? c = some k → k.dirty = true → j.dirty = true := by
  intro q j c k hj hc hch hk hd
  rw [get?_set_of_ne hi _ hch] at hk
  rcases of_get?_set hi hj with ⟨-, rfl⟩ | ⟨hqh, hj⟩
  · rfl
  · exact d hqh hch hj hc hk hd

/-- A climb has come to an item: those that it passed are live and stand below that item. -/
structure Climbed (rank : Handle → Nat) (o : Outline) (h : Handle) (l : List Handle) : Prop where
  ranked : ∀ {h i p j}, o.get? h = some i → i.parent = some p → o.get? p = some j →
    rank p < rank h
  nodup : l.Nodup
  live : ∀ x ∈ l, ∃ i, o.get? x = some i
  below : ∀ x ∈ l, ∀ i, o.get? h = some i → rank h < rank x

theorem Climbed.nodup_cons {rank : Handle → Nat} {l : List Handle} (c : Climbed rank o h l)
    (hi : o.get? h = some i) : (h :: l).Nodup :=
  List.nodup_cons.mpr ⟨fun hmem => Nat.lt_irrefl _ (c.below h hmem i hi), c.nodup⟩

theorem Climbed.length_lt {rank : Handle → Nat} {l : List Handle} (c : Climbed rank o h l)
    (w : o.WellFormed) (hi : o.get? h = some i) : l.length < o.slots.size := by
  have hle := w.free.length_le_itemCount (c.nodup_cons hi) fun x hx => by
    rcases List.mem_cons.mp hx with rfl | hx
    · exact ⟨i, hi⟩
    · exact c.live x hx
  have := itemCount_le_size o
  rw [List.length_cons] at hle
  omega

theorem Climbed.mark {rank : Handle → Nat} {l : List Handle} (c : Climbed rank o h l)
    (hi : o.get? h = some i) (hp : i.parent = some p) :
    Climbed rank (o.set h i.marked) p (h :: l) := by
  have ag : AgreeOn Item.parent o (o.set h i.marked) := .set hi rfl
  refine ⟨fun {x k q m} hk hq hm => ?_, c.nodup_cons hi, fun x hx => ?_, fun x hx j hj => ?_⟩
  · obtain ⟨k₀, hk₀, hkq⟩ := ag.symm.get?_eq_some hk
    obtain ⟨m₀, hm₀, -⟩ := ag.symm.get?_eq_some hm
    exact c.ranked hk₀ (hkq.trans hq) hm₀
  · rcases List.mem_cons.mp hx with rfl | hx
    · exact ⟨_, get?_set_self hi _⟩
    · obtain ⟨k, hk⟩ := c.live x hx
      obtain ⟨k', hk', -⟩ := ag.get?_eq_some hk
      exact ⟨k', hk'⟩
  · obtain ⟨j₀, hj₀, -⟩ := ag.symm.get?_eq_some hj
    have hph := c.ranked hi hp hj₀
    rcases List.mem_cons.mp hx with rfl | hx
    · exact hph
    · exact Nat.lt_trans hph (c.below x hx i hi)

/-- Marks climb as far as there are parents: no more than there are slots, for those that were passed
stand below (`l`).  At the end nothing is an exception. -/
theorem WellFormed.dirtyAbove_of_markUp {rank : Handle → Nat} {steps : Nat} {l : List Handle}
    {r : Except Violation Unit} (w : o.WellFormed) (c : Climbed rank o h l)
    (hlen : o.slots.size ≤ l.length + steps) (d : o.DirtyAboveBut h)
    (hx : exec (Edit.markUp steps h) o = (r, o')) : o'.DirtyAbove := by
  induction steps generalizing o h l with
  | zero =>
      obtain ⟨-, rfl⟩ := Prod.mk.inj hx
      refine d.of_none ?_
      cases hi : o.get? h with
      | none => rfl
      | some i =>
          have := c.length_lt w hi
          omega
  | succ steps ih =>
      -- who has a marked item among the children is its parent
      have above : ∀ {i q j}, o.get? h = some i → (o.set h i.marked).get? q = some j →
          h ∈ j.children → i.parent = some q := by
        intro i q j hi hj hmem
        obtain ⟨k, hk, hkq⟩ := (w.congr (AgreeOn.set (j := i.marked) hi rfl)).child hj hmem
        rw [get?_set_self hi] at hk
        rw [← Option.some.inj hk] at hkq
        exact hkq
      rcases exec_markUp_cases hx with ⟨hnone, -, rfl⟩ | ⟨i, hi, hp, -, rfl⟩ | ⟨i, p, hi, hp, hrest⟩
      · exact d.of_none hnone
      · intro q j c k hj hc hk hd
        refine d.mark hi hj hc ?_ hk hd
        rintro rfl
        cases hp.symm.trans (above hi hj hc)
      · have w₁ := w.congr (AgreeOn.set (j := i.marked) hi rfl)
        refine ih w₁ (c.mark hi hp) ?_ (fun q j c k hq _ hj hmem hk hd => ?_) hrest
        · rw [size_set, List.length_cons]
          omega
        · refine d.mark hi hj hmem ?_ hk hd
          rintro rfl
          exact hq (Option.some.inj ((above hi hj hmem).symm.trans hp))

theorem WellFormed.dirtyAbove_of_markDirty {r : Except Violation Unit} (w : o.WellFormed)
    (d : o.DirtyAboveBut h) (hx : exec (Edit.markDirty h) o = (r, o')) : o'.DirtyAbove := by
  obtain ⟨rank, hr⟩ := w.ranked
  have c : Climbed rank o h [] := ⟨hr, List.nodup_nil, by simp, by simp⟩
  exact w.dirtyAbove_of_markUp c (by simp) d hx

/-! ### Edits -/

/-- Fewer children are no harm. -/
theorem DirtyAbove.setChildren {cs : List Handle} (d : o.DirtyAbove) (hj : o.get? p = some j)
    (hcs : cs ⊆ j.children) : (o.set p { j with children := cs }).DirtyAbove := by
  have old : ∀ {x k}, (o.set p { j with children := cs }).get? x = some k →
      ∃ k₀, o.get? x = some k₀ ∧ k.children ⊆ k₀.children ∧ k₀.dirty = k.dirty := by
    intro x k hk
    rcases of_get?_set hj hk with ⟨rfl, rfl⟩ | ⟨-, hk⟩
    · exact ⟨j, hj, hcs, rfl⟩
    · exact ⟨k, hk, fun _ => id, rfl⟩
  intro q m c k hm hc hk hd
  obtain ⟨m₀, hm₀, hsub, hmd⟩ := old hm
  obtain ⟨k₀, hk₀, -, hkd⟩ := old hk
  exact hmd ▸ d hm₀ (hsub hc) hk₀ (hkd.trans hd)

theorem DirtyAbove.create {kind : Kind} {name : String} (d : o.DirtyAbove) (w : o.WellFormed)
    (hc : o.create p kind name = .ok (h, o')) : o'.DirtyAbove := by
  obtain ⟨g, -⟩ := w.free.allocate (create_eq_ok hc).2
  intro q j c i hj hmem hi hd
  rcases g.new_or_old hi with ⟨-, rfl⟩ | hi
  · cases hd
  · rcases g.new_or_old hj with ⟨-, rfl⟩ | hj
    · cases hmem
    · exact d hj hmem hi hd

theorem DirtyAbove.attach {index : Nat} (d : o.DirtyAbove) (ha : o.attach p index h = .ok o') :
    o'.DirtyAboveBut h ∧ ∃ i j, o.get? h = some i ∧ o.get? p = some j ∧
      ((i.dirty = true → j.dirty = true) → o'.DirtyAbove) := by
  obtain ⟨i, j, hi, hp, hj, -, hindex, -, rfl⟩ := attach_eq_ok ha
  have hperm : (j.children.insertIdx index h).Perm (h :: j.children) :=
    List.perm_insertIdx _ _ hindex
  have old : ∀ {x k}, (o.set p { j with children := j.children.insertIdx index h }).get? x = some k →
      ∃ k₀, o.get? x = some k₀ ∧ k₀.dirty = k.dirty ∧
        ∀ c ∈ k.children, c ∈ k₀.children ∨ c = h ∧ x = p := by
    intro x k hk
    rcases of_get?_set hj hk with ⟨rfl, rfl⟩ | ⟨-, hk⟩
    · refine ⟨j, hj, rfl, fun c hc => ?_⟩
      rcases List.mem_cons.mp (hperm.mem_iff.mp hc) with rfl | hc
      · exact Or.inr ⟨rfl, rfl⟩
      · exact Or.inl hc
    · exact ⟨k, hk, rfl, fun c hc => Or.inl hc⟩
  refine ⟨fun q m c k hq hch hm hc hk hd => ?_, i, j, hi, hj, fun hcalm q m c k hm hc hk hd => ?_⟩
  · obtain ⟨m₀, hm₀, hmd, hsub⟩ := old hm
    obtain ⟨k₀, hk₀, hkd, -⟩ := old hk
    rcases hsub c hc with hc | ⟨rfl, -⟩
    · exact hmd ▸ d hm₀ hc hk₀ (hkd.trans hd)
    · exact absurd rfl hch
  · obtain ⟨m₀, hm₀, hmd, hsub⟩ := old hm
    obtain ⟨k₀, hk₀, hkd, -⟩ := old hk
    rcases hsub c hc with hc | ⟨rfl, rfl⟩
    · exact hmd ▸ d hm₀ hc hk₀ (hkd.trans hd)
    · rw [hj] at hm₀
      rw [hi] at hk₀
      rw [← hmd, ← Option.some.inj hm₀]
      refine hcalm ?_
      rw [Option.some.inj hk₀, hkd, hd]

theorem DirtyAbove.releases (d : s.DirtyAbove) (w : s.WellFormed) (q : Releases s s') :
    s'.DirtyAbove :=
  fun _ _ _ _ hj hc hi hd => d (q.get?_eq_some w hj) hc (q.get?_eq_some w hi) hd

theorem DirtyAbove.remove {r : Except Violation Unit} (d : o.DirtyAbove) (w : o.WellFormed)
    (hx : exec (Edit.remove h) o = (r, o')) : o'.DirtyAbove := by
  rcases w.remove_cases hx with rfl | ⟨i, j, p, o₂, -, hj, -, q, -, hmark⟩
  · exact d
  · have w₁ := w.detach (h := h) hj
    have d₁ := d.setChildren hj (List.erase_subset (a := h))
    exact (q.tree w₁).dirtyAbove_of_markDirty ((d₁.releases w₁ q).but p) hmark

/-! ### Refreshing -/

/-- The mark of an item may be taken away when its children are clean. -/
theorem DirtyAbove.clear (d : o.DirtyAbove) (hi : o.get? h = some i)
    (clean : ∀ c ∈ i.children, ∀ k, o.get? c = some k → k.dirty = false) (cache : Option SharedTree) :
    (o.set h { i with dirty := false, cache }).DirtyAbove := by
  intro q j c k hj hc hk hd
  rcases of_get?_set hi hk with ⟨-, rfl⟩ | ⟨-, hk⟩
  · cases hd
  · rcases of_get?_set hi hj with ⟨-, rfl⟩ | ⟨-, hj⟩
    · rw [clean c hc k hk] at hd
      cases hd
    · exact d hj hc hk hd

end Outline

namespace Workspace

open Outline

variable {held made : List SharedTree} {h : Handle} {i : Item} {W W₁ W' : Workspace}

/-- What refreshing some children one by one keeps: those of `done` are clean. -/
structure Freshening (W : Workspace) (done : List Handle) (V : Workspace) : Prop where
  faded : Faded W V
  above : V.outline.DirtyAbove
  clean : ∀ c ∈ done, ∀ k, V.outline.get? c = some k → k.dirty = false

/-- Later steps that take marks away leave clean what is done. -/
theorem Freshening.next {done : List Handle} {V V' : Workspace} (f : Freshening W done V)
    (hV : Faded V V') (above : V'.outline.DirtyAbove) : Freshening W done V' := by
  refine ⟨IsTrans.trans _ _ _ f.faded hV, above, fun c hc k hk => ?_⟩
  cases hd : k.dirty with
  | false => rfl
  | true =>
      obtain ⟨k₀, hk₀, hd₀⟩ := hV.less hk hd
      rw [f.clean c hc k₀ hk₀] at hd₀
      cases hd₀

/-- Remembering the new image of an item whose children are clean. -/
theorem Freshening.remember {V : Workspace} {x : Work SharedTree} {r : Except Failure SharedTree}
    (f : Freshening W i.children V) (hi : W.outline.get? h = some i) (hmade : Always (Alike look) x)
    (hx : exec (remembering h (fun _ => false) x) V = (r, W')) :
    W'.outline.DirtyAbove ∧
      ∀ b, r.map some = .ok b → ∀ k, W'.outline.get? h = some k → k.dirty = false := by
  rcases exec_bind_cases hx with ⟨e, hrun, rfl⟩ | ⟨t, V₁, hrun, hrest⟩
  · exact ⟨f.above.look (hmade hrun), nofun⟩
  have f₁ := f.next (Outline.Alike.faded (hmade hrun)) (f.above.look (hmade hrun))
  obtain ⟨k, hk, hkf⟩ := f₁.faded.alike.agree.get?_eq_some hi
  rw [exec_bind_of_ok (exec_updateItem hk _)] at hrest
  obtain ⟨rfl, rfl⟩ := Prod.mk.inj hrest
  refine ⟨f₁.above.clear hk ?_ _, fun _ _ m hm => ?_⟩
  · rw [(Item.frame_eq_iff.mp hkf).2.2.2]
    exact f₁.clean
  · rw [get?_set_self hk] at hm
    rw [← Option.some.inj hm]

theorem freshening_of_refreshParts {levels : Nat} {cs : List Handle}
    {r : Except Failure (List (Handle × SharedTree) × Nat)} (w : W.outline.WellFormed)
    (d : W.outline.DirtyAbove) (ih : ∀ {c made V V'} {r : Except Failure (Option SharedTree)},
      V.outline.WellFormed → V.outline.DirtyAbove →
      exec (refreshAt held levels made c) V = (r, V') → V'.outline.DirtyAbove ∧
        ∀ a, r = .ok a → ∀ k, V'.outline.get? c = some k → k.dirty = false)
    (hx : exec (refreshParts held levels made cs) W = (r, W')) :
    W'.outline.DirtyAbove ∧ ∀ b, r = .ok b → Freshening W cs W' := by
  refine exec_foldlM_keeps (Freshening W) (fun V => V.outline.DirtyAbove) (fun f => f.above) [] ?_
    ⟨refl W, d, fun c hc => by cases hc⟩ hx
  rintro done ⟨parts, fresh⟩ c V rc V' - f hstep
  have wV := w.congr f.faded.alike.agree
  have done_next : ∀ {V₁ b} {made : List SharedTree},
      exec (refreshAt held levels made c) V = (.ok b, V₁) → Freshening W (done ++ [c]) V₁ := by
    intro V₁ b made hrun
    obtain ⟨above, hc⟩ := ih wV f.above hrun
    have f' := f.next (refreshAt_faded levels c hrun) above
    refine ⟨f'.faded, above, fun x hx => ?_⟩
    rcases List.mem_append.mp hx with hx | hx
    · exact f'.clean x hx
    · rw [List.mem_singleton.mp hx]
      exact hc b rfl
  cases partRun_of_exec hstep with
  | failed hrun => exact ⟨(ih wV f.above hrun).1, nofun⟩
  | renewed hrun => exact ⟨(done_next hrun).above, fun _ _ => done_next hrun⟩
  | asked hrun himage =>
      have a := imageAt_alike levels c himage
      have above := (done_next hrun).above.look a
      exact ⟨above, fun _ _ => (done_next hrun).next a.faded above⟩

theorem dirtyAbove_of_refreshAt {levels : Nat} {r : Except Failure (Option SharedTree)}
    (w : W.outline.WellFormed) (d : W.outline.DirtyAbove)
    (hx : exec (refreshAt held levels made h) W = (r, W')) :
    W'.outline.DirtyAbove ∧ ∀ a, r = .ok a → ∀ k, W'.outline.get? h = some k → k.dirty = false := by
  induction levels generalizing W W' made h r with
  | zero =>
      obtain ⟨rfl, rfl⟩ := Prod.mk.inj hx
      exact ⟨d, fun a ha => by cases ha⟩
  | succ levels ih =>
      cases hi : W.outline.get? h with
      | none =>
          rw [exec_refreshAt_of_none hi] at hx
          obtain ⟨rfl, rfl⟩ := Prod.mk.inj hx
          exact ⟨d, nofun⟩
      | some i =>
          cases refreshRun_of_exec hi hx with
          | clean hclean =>
              refine ⟨d, fun _ _ k hk => ?_⟩
              rw [hi] at hk
              rwa [← Option.some.inj hk]
          | file _ hfile hmade =>
              refine Freshening.remember ⟨refl W, d, fun c hc => ?_⟩ hi (fileImage_alike look h) hmade
              rw [w.children_file hi hfile] at hc
              cases hc
          | failed _ _ hparts => exact ⟨(freshening_of_refreshParts w d ih hparts).1, nofun⟩
          | @dir _ V notices _ _ _ _ hparts hmade =>
              have f := (freshening_of_refreshParts w d ih hparts).2 _ rfl
              have f' : Freshening W i.children { V with notices } := ⟨f.faded, f.above, f.clean⟩
              exact f'.remember hi (assemble_alike look h _) hmade

theorem dirtyAbove_of_refresh {r : Except Failure (Option SharedTree)} (w : W.outline.WellFormed)
    (d : W.outline.DirtyAbove) (hx : exec (refresh held h) W = (r, W')) : W'.outline.DirtyAbove := by
  unfold refresh at hx
  rw [exec_bind_of_ok (exec_get W)] at hx
  exact (dirtyAbove_of_refreshAt w d hx).1

end Workspace

namespace Outline

variable {o o' : Outline} {h p : Handle} {i j : Item}

/-! ### Runs of calm calls -/

/-- Whether a call attaches no dirty item below a clean one. -/
def isCalm (o : Outline) : Call → Bool
  | .attach p _ h => !(o.get? h).any Item.dirty || (o.get? p).any Item.dirty
  | _ => true

theorem dirtyAbove_new (package : String) (document : Option SharedTree) :
    (new package document).DirtyAbove := by
  intro p j c i hj hc
  rw [get?_new] at hj
  split at hj
  · rw [← Option.some.inj hj] at hc
    cases hc
  · cases hj

theorem DirtyAbove.rename {o₁ : Outline} {k : Item} {name : String} (d : o.DirtyAbove)
    (a : Alike Outline.look o o₁) (hk : o₁.get? h = some k) :
    (o₁.set h { k with name }).DirtyAbove :=
  (d.look a).congr (.set hk rfl)

/-- Calm calls keep the parents of dirty children dirty. -/
theorem DirtyAbove.upheld :
    Upheld (fun o c => o.isCalm c = true) fun n o => o.Tended n ∧ o.DirtyAbove where
  start package document := ⟨tended_new package document, dirtyAbove_new package document⟩
  mono hnm td := ⟨td.1.mono hnm, td.2⟩
  tree td := td.1.tree
  look a td := ⟨td.1.alike a.frame, td.2.look a⟩
  mark hx td := ⟨td.1.mark hx, td.1.tree.dirtyAbove_of_markDirty (td.2.but _) hx⟩
  create hc td := ⟨td.1.create hc, td.2.create td.1.tree hc⟩
  attach hcalm ha td := by
    obtain ⟨-, i, j, hi, hj, hkeeps⟩ := td.2.attach ha
    refine ⟨td.1.attach ha, hkeeps fun hd => ?_⟩
    simpa [isCalm, hi, hj, hd] using hcalm
  insert ha hx td :=
    ⟨(td.1.attach ha).mark hx, (td.1.attach ha).tree.dirtyAbove_of_markDirty (td.2.attach ha).1 hx⟩
  rename hi hname a hk td := ⟨td.1.rename hi hname a hk, td.2.rename a hk⟩
  permute hj hcs td :=
    ⟨td.1.setChildren hj (td.1.tree.permute hj hcs), td.2.setChildren hj hcs.subset⟩
  refresh hx td := ⟨td.1.alike (Workspace.refresh_faded _ hx).alike,
    Workspace.dirtyAbove_of_refresh td.1.tree td.2 hx⟩
  remove hx hn td := ⟨td.1.remove hx hn, td.2.remove td.1.tree hx⟩

/-- What the root leads to has a line, and if it is dirty, all of the line is. -/
theorem DirtyAbove.line (d : o.DirtyAbove) (w : o.WellFormed) (hr : o.Reachable h) :
    ∃ l, o.Line h l ∧ ∀ i, o.get? h = some i → i.dirty = true →
      ∀ x ∈ l, ∃ k, o.get? x = some k ∧ k.dirty = true := by
  induction hr with
  | root =>
      obtain ⟨r, hroot, -, hnone⟩ := w.root
      refine ⟨_, .root hroot hnone, fun i hi hd x hx => ?_⟩
      rw [List.mem_singleton.mp hx]
      exact ⟨i, hi, hd⟩
  | @child p c j _ hj hc ih =>
      obtain ⟨l, hl, hdirty⟩ := ih
      obtain ⟨i, hi, hp⟩ := w.child hj hc
      refine ⟨_, .step hi hp hl, fun i hi hd x hx => ?_⟩
      rcases List.mem_cons.mp hx with rfl | hx
      · exact ⟨i, hi, hd⟩
      · exact hdirty j hj (d hj hc hi hd) x hx

/-- An accepted call that is not calm leaves a dirty child of a clean item. -/
theorem attach_breaks {index : Nat} (hcalm : o.isCalm (.attach p index h) = false)
    (ha : o.attach p index h = .ok o') :
    ∃ i j, o'.get? h = some i ∧ i.dirty = true ∧ o'.get? p = some j ∧ h ∈ j.children ∧
      j.dirty = false := by
  obtain ⟨i, j, hi, hp, hj, hmem, hindex, -, rfl⟩ := attach_eq_ok ha
  have hperm : (j.children.insertIdx index h).Perm (h :: j.children) :=
    List.perm_insertIdx _ _ hindex
  obtain ⟨hdi, hdj⟩ : i.dirty = true ∧ j.dirty = false := by
    simpa [isCalm, hi, hj] using hcalm
  have hhp : h ≠ p := by
    rintro rfl
    rw [hi] at hj
    rw [Option.some.inj hj, hdj] at hdi
    cases hdi
  exact ⟨i, _, by rw [get?_set_of_ne hj _ hhp, hi], hdi, get?_set_self hj _,
    hperm.mem_iff.mpr List.mem_cons_self, hdj⟩

end Outline

/-- As long as no dirty item is attached below a clean one, and fewer items are released than a slot
has generations: above a dirty item that the root leads to, all is dirty.  Attaching a dirty item below
a clean one leaves a dirty child of a clean item, in whatever outline. -/
theorem CallRun.dirty_line {n : Nat} {W : Workspace}
    (run : CallRun (fun o c => o.isCalm c = true) n W) (hn : n < 2 ^ 32) :
    (∀ h, W.outline.Reachable h →
      ∃ l, W.outline.Line h l ∧ ∀ i, W.outline.get? h = some i → i.dirty = true →
        ∀ x ∈ l, ∃ k, W.outline.get? x = some k ∧ k.dirty = true) ∧
    ∀ (o o' : Outline) (p h : Handle) (index : Nat), o.isCalm (.attach p index h) = false →
      o.attach p index h = .ok o' →
      ∃ i j, o'.get? h = some i ∧ i.dirty = true ∧ o'.get? p = some j ∧ h ∈ j.children ∧
        j.dirty = false := by
  obtain ⟨t, d⟩ := run.upheld Outline.DirtyAbove.upheld hn
  exact ⟨fun h hr => d.line t.tree hr, fun o o' p h index => Outline.attach_breaks⟩

/-- A file that was made long before it is attached, and changed after it is. -/
theorem CallRun.dirty_line_of_attached_file : ∃ (n : Nat) (W : Workspace) (l : List Handle),
    CallRun (fun o c => o.isCalm c = true) n W ∧ n < 2 ^ 32 ∧
    (W.outline.get? ⟨3, 0⟩).any Item.dirty = true ∧ W.outline.Line ⟨3, 0⟩ l ∧
    ∀ x ∈ l, ∃ k, W.outline.get? x = some k ∧ k.dirty = true := by
  obtain ⟨W, run, hroot, hgroup, hfolder, hdirty⟩ := CallRun.exists_of_play
    (fun o c => o.isCalm c = true) "P"
    [.add Outline.root .group "Package", .add ⟨1, 0⟩ .folder "d", .create ⟨2, 0⟩ .file "a",
      .refresh [] Outline.root, .attach ⟨2, 0⟩ 0 ⟨3, 0⟩, .setContents ⟨3, 0⟩ [0x31]]
    0 (fun W => (W.outline.get? Outline.root).any (·.children.contains ⟨1, 0⟩) = true ∧
      (W.outline.get? ⟨1, 0⟩).any (·.children.contains ⟨2, 0⟩) = true ∧
      (W.outline.get? ⟨2, 0⟩).any (·.children.contains ⟨3, 0⟩) = true ∧
      (W.outline.get? ⟨3, 0⟩).any Item.dirty = true) (by decide +kernel)
  have hless : 0 < 2 ^ 32 := by decide
  have below : ∀ {p c : Handle}, W.outline.Reachable p →
      (W.outline.get? p).any (·.children.contains c) = true → W.outline.Reachable c := by
    intro p c hp hc
    obtain ⟨j, hj, hmem⟩ := (Option.any_eq_true ..).mp hc
    exact .child hp hj (by simpa using hmem)
  have hr : W.outline.Reachable ⟨3, 0⟩ := below (below (below .root hroot) hgroup) hfolder
  obtain ⟨l, hl, hline⟩ := (run.dirty_line hless).1 _ hr
  obtain ⟨i, hi, hd⟩ := (Option.any_eq_true ..).mp hdirty
  exact ⟨0, W, l, run, hless, hdirty, hl, hline i hi hd⟩

/-- A file that is changed while it is not attached, and attached after the root was refreshed. -/
theorem CallRun.dirty_below_clean : ∃ W : Workspace, CallRun (fun _ _ => True) 0 W ∧
    ∃ h i j, W.outline.Reachable h ∧ W.outline.get? h = some i ∧ i.dirty = true ∧
      i.parent = some Outline.root ∧ W.outline.get? Outline.root = some j ∧ j.dirty = false := by
  obtain ⟨W, run, hroot, hfile⟩ := CallRun.exists_of_play (fun _ _ => True) "p"
    [.create Outline.root .file "x", .setContents ⟨1, 0⟩ [0x31], .refresh [] Outline.root,
      .attach Outline.root 0 ⟨1, 0⟩]
    0 (fun W => (W.outline.get? Outline.root).any
        (fun j => j.children.contains ⟨1, 0⟩ && !j.dirty) = true ∧
      (W.outline.get? ⟨1, 0⟩).any (fun i => i.dirty && i.parent == some Outline.root) = true)
    (by decide +kernel)
  obtain ⟨j, hj, hjw⟩ := (Option.any_eq_true ..).mp hroot
  obtain ⟨i, hi, hiw⟩ := (Option.any_eq_true ..).mp hfile
  obtain ⟨hmem, hclean⟩ : ⟨1, 0⟩ ∈ j.children ∧ j.dirty = false := by simpa using hjw
  obtain ⟨hdirty, hparent⟩ : i.dirty = true ∧ i.parent = some Outline.root := by simpa using hiw
  exact ⟨W, run, ⟨1, 0⟩, i, j, .child .root hj hmem, hi, hdirty, hparent, hj, hclean⟩

end PackageOutline
