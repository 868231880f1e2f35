import PackageOutline.Proofs.Outline.Images

/-! # Refreshing

Refreshing a dirty item makes its image anew, and takes marks away: of the items at and below only,
and of all of them when it ends well.  When it fails the item stays dirty (`exec_refreshAt`). -/

namespace PackageOutline

theorem Outline.not_clean_of_get? {o : Outline} {h : Handle} {i k : Item} (hi : o.get? h = some i)
    (hd : i.dirty = true) (hk : o.get? h = some k) : k.dirty ≠ false := by
  rw [hi] at hk
  rw [← Option.some.inj hk, hd]
  exact nofun

namespace Workspace

open Outline

variable {o : Outline} {W W' : Workspace} {h : Handle} {i : Item}

/-- What refreshing an item comes to. -/
structure Refreshed (o : Outline) (h : Handle) (W W' : Workspace)
    (r : Except Failure (Option SharedTree)) : Prop where
  kept : Kept (o.Below h) W.outline W'.outline
  closed : W'.outline.DirtyClosed
  idle : ∀ {i}, W.outline.get? h = some i → i.dirty = false → r = .ok none ∧ W' = W
  image : ∀ {i}, W.outline.get? h = some i → i.dirty = true →
    r.map (Option.map Tree.plain) = (o.plainImage h).map some
  clean : ∀ {b x j}, r = .ok b → o.Below h x → W'.outline.get? x = some j → j.dirty = false
  failed : ∀ {e j}, r = .error e → W'.outline.get? h = some j → j.dirty = true

theorem Refreshed.image_of_ne {r : Except Failure (Option SharedTree)} (R : Refreshed o h W W' r)
    (hi : W.outline.get? h = some i) (hr : r ≠ .ok none) :
    r.map (Option.map Tree.plain) = (o.plainImage h).map some := by
  cases hd : i.dirty with
  | false => exact absurd (R.idle hi hd).1 hr
  | true => exact R.image hi hd

theorem Refreshed.plainImage_of_error {e : Failure} (R : Refreshed o h W W' (.error e))
    (hi : W.outline.get? h = some i) : o.plainImage h = .error e := by
  have himage := R.image_of_ne hi nofun
  cases hp : o.plainImage h with
  | error e' =>
      rw [hp] at himage
      rw [Except.error.inj himage]
  | ok t =>
      rw [hp] at himage
      cases himage

theorem Refreshed.plainImage_of_some {t : SharedTree} (R : Refreshed o h W W' (.ok (some t)))
    (hi : W.outline.get? h = some i) : o.plainImage h = .ok t.plain := by
  have himage := R.image_of_ne hi nofun
  cases hp : o.plainImage h with
  | error e =>
      rw [hp] at himage
      cases himage
  | ok u =>
      rw [hp] at himage
      rw [Option.some.inj (Except.ok.inj himage)]

/-- What refreshing some items one by one keeps: those of `done` are clean with all below them. -/
structure Refreshing (o : Outline) (cs : List Handle) (W : Workspace) (done : List Handle)
    (V : Workspace) : Prop where
  kept : Kept (fun x => ∃ c ∈ cs, o.Below c x) W.outline V.outline
  closed : V.outline.DirtyClosed
  clean : ∀ {c x j}, c ∈ done → o.Below c x → V.outline.get? x = some j → j.dirty = false

/-- What is done stays done while more marks are taken away. -/
theorem Refreshing.next {cs done : List Handle} {V V' : Workspace} (I : Refreshing o cs W done V)
    (k : Kept (fun x => ∃ c ∈ cs, o.Below c x) V.outline V'.outline)
    (d : V'.outline.DirtyClosed) : Refreshing o cs W done V' :=
  ⟨k.after I.kept.cleared, d, fun hc hb hj =>
    k.cleared.clean (fun _ hm => I.clean hc hb hm) _ hj⟩

/-- One more item is done when all at and below it is clean. -/
theorem Refreshing.add {cs done : List Handle} {V : Workspace} {c : Handle}
    (I : Refreshing o cs W done V)
    (hc : ∀ {x j}, o.Below c x → V.outline.get? x = some j → j.dirty = false) :
    Refreshing o cs W (done ++ [c]) V := by
  refine ⟨I.kept, I.closed, fun {c' x j} hmem hb hj => ?_⟩
  rcases List.mem_append.mp hmem with hmem | hmem
  · exact I.clean hmem hb hj
  · rw [List.mem_singleton.mp hmem] at hb
    exact hc hb hj

/-- The new images of some items, given what refreshing one of them comes to. -/
theorem exec_refreshParts {held made : List SharedTree} {levels : Nat} {cs : List Handle}
    {r : Except Failure (List (Handle × SharedTree) × Nat)} (w : o.WellFormed) (a : o.Attached)
    (hf : ∀ c ∈ cs, o.Fits levels c)
    (ih : ∀ {c made V V'} {r : Except Failure (Option SharedTree)}, c ∈ cs →
      SameTree o V.outline → V.outline.Coherent → V.outline.DirtyClosed →
      exec (refreshAt held levels made c) V = (r, V') → Refreshed o c V V' r)
    (st : SameTree o W.outline) (co : W.outline.Coherent) (d : W.outline.DirtyClosed)
    (hx : exec (refreshParts held levels made cs) W = (r, W')) :
    r.map (fun b => plainParts b.1) = (cs.mapM fun c => (o.plainImage c).map (Prod.mk c)) ∧
      (∃ done, Refreshing o cs W done W') ∧ ∀ b, r = .ok b → Refreshing o cs W cs W' := by
  have hfold := exec_foldlM (fun b : List (Handle × SharedTree) × Nat => plainParts b.1)
    (fun c => (o.plainImage c).map (Prod.mk c)) (Refreshing o cs W) [] ?_
    ⟨⟨.refl _ _, co⟩, d, fun hmem => by cases hmem⟩ hx
  · obtain ⟨hview, hsome, hall⟩ := hfold
    refine ⟨?_, hsome, hall⟩
    rw [hview]
    cases cs.mapM fun c => (o.plainImage c).map (Prod.mk c) <;> rfl
  · rintro done ⟨parts, fresh⟩ c V rc V' hmem I hstep
    obtain ⟨i₀, hi₀⟩ : ∃ i, o.get? c = some i := by
      cases levels with
      | zero => exact (hf c hmem).elim
      | succ n =>
          obtain ⟨i, hi, -⟩ := hf c hmem
          exact ⟨i, hi⟩
    have stV := st.trans I.kept.cleared.tree
    obtain ⟨i, hi, -⟩ := stV.agree.get?_eq_some hi₀
    have next : ∀ {V₁} {rr : Except Failure (Option SharedTree)}, Refreshed o c V V₁ rr →
        Refreshing o cs W done V₁ := fun R =>
      I.next (R.kept.mono fun hb => ⟨c, hmem, hb⟩) R.closed
    cases partRun_of_exec hstep with
    | failed hrun =>
        have R := ih hmem stV I.kept.coherent I.closed hrun
        rw [R.plainImage_of_error hi]
        exact ⟨rfl, ⟨done, next R⟩, nofun⟩
    | renewed hrun =>
        have R := ih hmem stV I.kept.coherent I.closed hrun
        refine ⟨?_, ⟨done, next R⟩, fun _ _ => (next R).add (R.clean rfl)⟩
        simp [R.plainImage_of_some hi, Except.map, plainParts]
    | @asked V₁ rp _ hrun himage =>
        have R := ih hmem stV I.kept.coherent I.closed hrun
        obtain ⟨hplain, k⟩ := exec_imageAt w a (hf c hmem) (stV.trans R.kept.cleared.tree)
          R.kept.coherent himage
        have I₁ := ((next R).add (R.clean rfl)).next (k.mono False.elim)
          (k.cleared.dirtyClosed R.closed)
        refine ⟨?_, ⟨_, I₁⟩, fun _ _ => I₁⟩
        rw [← hplain]
        cases rp with
        | error e => rfl
        | ok t => simp [Except.map, plainParts]

theorem exec_rememberNew {V : Workspace} {i₀ : Item} {x : Work SharedTree}
    {r : Except Failure SharedTree} (w : o.WellFormed) (a : o.Attached)
    (hi₀ : o.get? h = some i₀) (st : SameTree o W.outline) (hi : W.outline.get? h = some i)
    (hd : i.dirty = true) (k : Kept (o.Below h) W.outline V.outline) (dV : V.outline.DirtyClosed)
    (same : (V.outline.get? h).map Item.dirty = (W.outline.get? h).map Item.dirty)
    (clean : ∀ {x j}, o.Below h x → x ≠ h → V.outline.get? x = some j → j.dirty = false)
    (hmade : ∀ {r₁ V₁}, exec x V = (r₁, V₁) →
      V₁.outline = V.outline ∧ r₁.map Tree.plain = V.outline.plainImage h)
    (hx : exec (remembering h (fun _ => false) x) V = (r, W')) :
    Refreshed o h W W' (r.map some) := by
  have stV := st.trans k.cleared.tree
  obtain ⟨i₁, hi₁, -⟩ := stV.agree.get?_eq_some hi₀
  obtain ⟨co, hplain, hout⟩ := exec_remembering (stV.wellFormed w) (stV.attached a) k.coherent hi₁
    hmade hx
  have himage : (r.map some).map (Option.map Tree.plain) = (o.plainImage h).map some := by
    rw [← stV.plainImage w a hi₀, ← hplain]
    cases r <;> rfl
  have idle : ∀ {k}, W.outline.get? h = some k → k.dirty = false → r.map some = .ok none ∧ W' = W :=
    fun hk hdk => absurd hdk (not_clean_of_get? hi hd hk)
  rw [hi, hi₁, Option.map_some, Option.map_some, hd] at same
  rcases hout with ⟨e, rfl, ho⟩ | ⟨t, rfl, ho⟩
  · refine ⟨⟨ho ▸ k.cleared, co⟩, ho ▸ dV, idle, fun _ _ => himage, nofun,
      fun {_ j} _ hj => ?_⟩
    · rw [ho, hi₁] at hj
      rw [← Option.some.inj hj]
      exact Option.some.inj same
  · have hset : Cleared (o.Below h) V.outline W'.outline := by
      rw [ho]
      exact .set hi₁ rfl (fun hf => by cases hf) (Or.inl .self)
    refine ⟨⟨k.cleared.trans hset, co⟩, ?_, idle, fun _ _ => himage, ?_, nofun⟩
    · rw [ho]
      refine dV.clear hi₁ rfl fun {x m} hx hm hp => ?_
      obtain ⟨m₀, hm₀, hmb⟩ := stV.agree.symm.get?_eq_some hm
      have hmp := (Item.frame_eq_iff.mp (Item.bare_eq_iff.mp hmb).1).2.2.1
      exact clean (.step hm₀ (hmp.trans hp) .self) hx hm
    · intro b x j _ hbx hj
      rw [ho] at hj
      rcases of_get?_set hi₁ hj with ⟨-, rfl⟩ | ⟨hx, hj⟩
      · rfl
      · exact clean hbx hx hj

/-- Refreshing a dirty item makes its image anew and leaves it clean with all below it; memory stays
coherent and marks closed upwards, also when it fails. -/
theorem exec_refreshAt {held : List SharedTree} (w : o.WellFormed) (a : o.Attached) {levels : Nat}
    {made : List SharedTree} {r : Except Failure (Option SharedTree)} (hf : o.Fits levels h)
    (st : SameTree o W.outline) (co : W.outline.Coherent) (d : W.outline.DirtyClosed)
    (hx : exec (refreshAt held levels made h) W = (r, W')) : Refreshed o h W W' r := by
  induction levels generalizing made h W r W' with
  | zero => exact hf.elim
  | succ levels ih =>
      obtain ⟨i₀, hi₀, hc⟩ := hf
      obtain ⟨i, hi, hb⟩ := st.agree.get?_eq_some hi₀
      obtain ⟨hkind, -, -, hchildren⟩ := Item.frame_eq_iff.mp (Item.bare_eq_iff.mp hb).1
      have inside : ∀ {x}, (∃ c ∈ i.children, o.Below c x) → o.Below h x :=
        fun hx => w.below_of_children hi₀ (hchildren ▸ hx)
      have outside : ¬ ∃ c ∈ i.children, o.Below c h :=
        hchildren ▸ w.not_below_children hi₀
      have gathered {rp V} (hparts : exec (refreshParts held levels made i.children) W = (rp, V)) :=
        exec_refreshParts w a (fun c hmem => hc c (hchildren ▸ hmem))
          (fun hmem => ih (hc _ (hchildren ▸ hmem))) st co d hparts
      cases refreshRun_of_exec hi hx with
      | clean hd =>
          refine ⟨⟨.refl _ _, co⟩, d, fun _ _ => ⟨rfl, rfl⟩, fun hk hdk => ?_,
            fun {b x j} _ hb hj => ?_, nofun⟩
          · exact absurd hd (not_clean_of_get? hk hdk hi)
          · refine d.clean_below (hb.congr fun hk => ?_) hi hd hj
            obtain ⟨k', hk', hkb⟩ := st.agree.get?_eq_some hk
            exact ⟨k', hk', (Item.frame_eq_iff.mp (Item.bare_eq_iff.mp hkb).1).2.2.1⟩
      | file hd hfile hmade =>
          refine exec_rememberNew w a hi₀ st hi hd ⟨.refl _ _, co⟩ d rfl
            (fun {x j} hbx hxh _ => ?_) (fun hrun => ?_) hmade
          · rcases hbx.cases_child w a hi₀ with rfl | ⟨c, hc', -⟩
            · exact absurd rfl hxh
            · rw [w.children_file hi₀ (hkind ▸ hfile)] at hc'
              cases hc'
          · have w₀ := st.wellFormed w
            obtain ⟨ho, hplain⟩ := exec_fileImage w₀ (st.attached a) hi hrun
            exact ⟨ho, by rw [hplain, w₀.plainImage_file hi hfile]⟩
      | failed hd hfile hparts =>
          obtain ⟨hview, ⟨done, I⟩, -⟩ := gathered hparts
          rw [hchildren] at hview
          refine ⟨⟨I.kept.cleared.mono inside, I.kept.coherent⟩, I.closed, fun hk hdk => ?_,
            fun _ _ => ?_, nofun, fun {_ j} _ hj => ?_⟩
          · exact absurd hdk (not_clean_of_get? hi hd hk)
          · rw [plainImage_of_failed_parts w hi₀ (hkind ▸ hfile) hview]
            rfl
          · have hsame := I.kept.cleared.off outside
            rw [hi, hj, Option.map_some, Option.map_some, hd] at hsame
            exact Option.some.inj hsame
      | dir hd hfile hparts hmade =>
          obtain ⟨hview, -, hall⟩ := gathered hparts
          rw [hchildren] at hview
          have I := hall _ rfl
          refine exec_rememberNew w a hi₀ st hi hd ?_ ?_ ?_ (fun {x j} hbx hxh hj => ?_) ?_ hmade
          · exact ⟨I.kept.cleared.mono inside, I.kept.coherent⟩
          · exact I.closed
          · exact I.kept.cleared.off outside
          · rcases hbx.cases_child w a hi₀ with rfl | ⟨c, hc', hcx⟩
            · exact absurd rfl hxh
            · exact I.clean (hchildren ▸ hc') hcx hj
          · exact exec_assemble_children w a (st.trans I.kept.cleared.tree) hi₀ (hkind ▸ hfile) hview

end Workspace

end PackageOutline
