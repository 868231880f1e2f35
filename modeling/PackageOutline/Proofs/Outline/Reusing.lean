import PackageOutline.Proofs.Outline.Objects
import PackageOutline.Proofs.Outline.Refreshing

/-! # Images are made of objects that are there

Computing images keeps memory intact (`Workspace.Grows`): the trees that it gives are held from then on,
what was alive stays where it is remembered, no object that was gone is alive again, and nothing is
written beside the items that the computation is about.

`exec_imageAt_grows` and `exec_refreshAt_grows` follow the recursion of the computations. -/

namespace PackageOutline

open PackageOutline.Tree (Part Alive Identified)

namespace Workspace

open Outline

variable {o : Outline} {W W' W'' V : Workspace} {h : Handle} {i : Item} {D t : SharedTree}
  {held held' held'' : List SharedTree} {P Q : Handle → Prop}

/-- What a computation with images does to memory, from the trees that were held to those that are. -/
structure Grows (P : Handle → Prop) (held : List SharedTree) (W : Workspace)
    (held' : List SharedTree) (W' : Workspace) : Prop where
  next : W.next ≤ W'.next
  subset : held ⊆ held'
  intact : W'.Intact held'
  lasts : Lasts held W.outline W'.outline
  old : ∀ {t}, t.label < W.next → Alive held' t → Alive held t
  off : ∀ {x}, ¬ P x → W'.outline.get? x = W.outline.get? x

namespace Grows

theorem refl (P : Handle → Prop) (I : W.Intact held) : Grows P held W held W :=
  ⟨Nat.le_refl _, fun _ ht => ht, I, .refl _ _, fun _ ha => ha, fun _ => rfl⟩

theorem trans (g : Grows P held W held' W') (g' : Grows P held' W' held'' W'') :
    Grows P held W held'' W'' :=
  ⟨Nat.le_trans g.next g'.next, fun _ ht => g'.subset (g.subset ht), g'.intact,
    g.lasts.trans (g'.lasts.anti g.subset),
    fun hl ha => g.old hl (g'.old (Nat.lt_of_lt_of_le hl g.next) ha),
    fun hx => (g'.off hx).trans (g.off hx)⟩

theorem mono (g : Grows P held W held' W') (hPQ : ∀ {x}, P x → Q x) : Grows Q held W held' W' :=
  { g with off := fun hx => g.off fun hp => hx (hPQ hp) }

theorem note (g : Grows P held W held' W') (notices : List Notice) :
    Grows P held W held' { W' with notices } :=
  ⟨g.next, g.subset, ⟨g.intact.objects, g.intact.reuses⟩, g.lasts, g.old, g.off⟩

theorem shrink (g : Grows P held W held'' W') (h : held ⊆ held') (h' : held' ⊆ held'') :
    Grows P held W held' W' :=
  { g with
    subset := h
    intact := g.intact.subset h'
    old := fun hl ha => g.old hl (ha.subset h') }

theorem hold (I : W.Intact held) (ha : Alive held t) : Grows P held W (t :: held) W := by
  have hheld : ∀ u ∈ t :: held, Alive held u := by
    intro u hu
    rcases List.mem_cons.mp hu with rfl | hu
    · exact ha
    · exact Tree.alive_of_mem hu
  exact ⟨Nat.le_refl _, fun _ hu => List.mem_cons_of_mem _ hu, I.mono hheld, .refl _ _,
    fun _ hu => hu.mono hheld, fun _ => rfl⟩

theorem make (I : W.Intact held) (hl : D.label = W.next)
    (hD : ∀ {u}, Part u D → u = D ∨ Alive held u) :
    Grows P held W (D :: held) { W with next := W.next + 1 } := by
  have old : ∀ {t}, t.label < W.next → Alive (D :: held) t → Alive held t := by
    rintro t ht ⟨v, hv, hp⟩
    rcases List.mem_cons.mp hv with rfl | hv
    · rcases hD hp with rfl | ha
      · exact absurd hl (Nat.ne_of_lt ht)
      · exact ha
    · exact ⟨v, hv, hp⟩
  refine ⟨Nat.le_succ _, fun _ ht => List.mem_cons_of_mem _ ht, ⟨?_, ?_⟩, .refl _ _, old,
    fun _ => rfl⟩
  · refine (I.objects.make hl fun hp => (hD hp).imp_right fun ⟨v, hv, hp⟩ =>
      ⟨v, Or.inl hv, hp⟩).mono ?_
    rintro t (ht | hr)
    · rcases List.mem_cons.mp ht with rfl | ht
      · exact ⟨t, Or.inl rfl, .self⟩
      · exact ⟨t, Or.inr (Or.inl ht), .self⟩
    · exact ⟨t, Or.inr (Or.inr hr), .self⟩
  · intro d E hr ha
    exact I.reuses hr (old (I.objects.fresh (Or.inr ⟨d, hr⟩) .self) ha)

/-- Remembering an object that is held, where none was that is alive. -/
theorem remember (I : W.Intact held) (w : W.outline.WellFormed) (closed : W.outline.DirtyClosed)
    (hi : W.outline.get? h = some i) (hstale : ∀ t, W.outline.Remembers h t → ¬ Alive held t)
    (hD : D ∈ held) {dirty : Bool} (hreuses : dirty = false → W.outline.Reuses h D) :
    Grows (· = h) held W held
      { W with outline := W.outline.set h { i with dirty, cache := some D } } :=
  ⟨Nat.le_refl _, fun _ ht => ht, I.remember w closed hi hstale hD hreuses, lasts_set hi hstale _,
    fun _ ha => ha, fun hx => get?_set_of_ne hi _ hx⟩

end Grows

/-! ### Files and directories -/

theorem exec_fileImage_grows {r : Except Failure SharedTree} (I : W.Intact held)
    (hdoc : ∀ d ∈ W.outline.document, d ∈ held) (hx : exec (fileImage h) W = (r, W')) :
    Grows P held W (r.toOption.toList ++ held) W' ∧ W'.outline = W.outline := by
  unfold fileImage at hx
  rcases exec_bind_cases hx with ⟨e, hread, rfl⟩ | ⟨i, V, hread, hx⟩
  · obtain ⟨-, rfl⟩ := Prod.mk.inj hread
    exact ⟨.refl P I, rfl⟩
  obtain ⟨-, rfl⟩ := Prod.mk.inj hread
  cases hc : i.contents with
  | some c =>
      simp only [hc, exec_make] at hx
      obtain ⟨rfl, rfl⟩ := Prod.mk.inj hx
      refine ⟨.make I rfl fun hp => ?_, rfl⟩
      cases hp
      exact Or.inl rfl
  | none =>
      simp only [hc] at hx
      rcases exec_bind_cases hx with ⟨e, hnames, rfl⟩ | ⟨names, V, hnames, hx⟩
      · obtain ⟨-, rfl⟩ := Prod.mk.inj hnames
        exact ⟨.refl P I, rfl⟩
      obtain ⟨-, rfl⟩ := Prod.mk.inj hnames
      rw [exec_bind_of_ok (exec_get W)] at hx
      split at hx
      · rename_i t ht
        obtain ⟨rfl, rfl⟩ := Prod.mk.inj hx
        obtain ⟨d, hd, hfound⟩ := Option.bind_eq_some_iff.mp (Option.filter_eq_some_iff.mp ht).1
        exact ⟨.hold I ⟨d, hdoc d hd, Tree.part_of_find? hfound⟩, rfl⟩
      · obtain ⟨rfl, rfl⟩ := Prod.mk.inj hx
        exact ⟨.refl P I, rfl⟩

theorem part_of_mem_contribution {i : Item} {e : String × SharedTree}
    (he : e ∈ contribution i t) : Part e.2 t := by
  unfold contribution at he
  split at he
  · exact Tree.part_of_mem_entries he
  · rw [List.mem_singleton.mp he]
    exact .self

theorem exec_assemble_grows {r : Except Failure SharedTree} {parts : List (Handle × SharedTree)}
    (I : W.Intact held) (hparts : ∀ q ∈ parts, q.2 ∈ held)
    (live : ∀ q ∈ parts, ∃ k, W.outline.get? q.1 = some k)
    (hx : exec (assemble h parts) W = (r, W')) :
    Grows P held W (r.toOption.toList ++ held) W' ∧ W'.outline = W.outline ∧
      ∀ t, r = .ok t → t.entries = (parts.map fun q => W.outline.contributed q.1 q.2).flatten := by
  unfold assemble at hx
  rw [exec_bind_of_ok (exec_contributions live)] at hx
  dsimp only at hx
  split at hx
  · rcases exec_bind_cases hx with ⟨e, hnames, rfl⟩ | ⟨names, V, hnames, hx⟩
    · obtain ⟨-, rfl⟩ := Prod.mk.inj hnames
      exact ⟨.refl P I, rfl, nofun⟩
    · obtain ⟨-, rfl⟩ := Prod.mk.inj hnames
      obtain ⟨rfl, rfl⟩ := Prod.mk.inj hx
      exact ⟨.refl P I, rfl, nofun⟩
  · rw [exec_make] at hx
    obtain ⟨rfl, rfl⟩ := Prod.mk.inj hx
    refine ⟨.make I rfl fun hp => ?_, rfl, fun t ht => by rw [← Except.ok.inj ht]; rfl⟩
    cases hp with
    | self => exact Or.inl rfl
    | entry he hp =>
        obtain ⟨es, hes, he⟩ := List.mem_flatten.mp he
        obtain ⟨q, hq, rfl⟩ := List.mem_map.mp hes
        obtain ⟨k, hk⟩ := live q hq
        unfold contributed at he
        rw [hk, Option.elim_some] at he
        exact Or.inr ⟨q.2, hparts q hq, hp.trans (part_of_mem_contribution he)⟩

theorem Intact.label_lt (I : W.Intact held) (hr : W.outline.Remembers h t) : t.label < W.next :=
  I.objects.fresh (Or.inr ⟨h, hr⟩) .self

theorem exec_remembering_grows {x : Work SharedTree} {mark : Bool → Bool}
    {r : Except Failure SharedTree} (I : W.Intact held) (w : W.outline.WellFormed)
    (closed : W.outline.DirtyClosed) (hi : W.outline.get? h = some i)
    (hstale : ∀ t, W.outline.Remembers h t → ¬ Alive held t)
    (hmade : ∀ {r₁ V}, exec x W = (r₁, V) → Grows (· = h) held W (r₁.toOption.toList ++ held) V ∧
      V.outline = W.outline ∧ ∀ t, r₁ = .ok t → mark i.dirty = false → W.outline.Reuses h t)
    (hx : exec (remembering h mark x) W = (r, W')) :
    Grows (· = h) held W (r.toOption.toList ++ held) W' ∧
      ∀ t, r = .ok t → mark i.dirty = false → W'.outline.Remembers h t := by
  rcases exec_bind_cases hx with ⟨e, hrun, rfl⟩ | ⟨t, V, hrun, hrest⟩
  · exact ⟨(hmade hrun).1, nofun⟩
  · obtain ⟨g, ho, hreuses⟩ := hmade hrun
    rw [← ho] at hi w closed
    rw [exec_bind_of_ok (exec_updateItem hi _)] at hrest
    obtain ⟨rfl, rfl⟩ := Prod.mk.inj hrest
    -- what the item remembered has an older identity, so the new object does not bring it back
    have stale : ∀ u, V.outline.Remembers h u → ¬ Alive (t :: held) u := fun u hr ha =>
      hstale u (ho ▸ hr) (g.old (I.label_lt (ho ▸ hr)) ha)
    refine ⟨g.trans (.remember g.intact w closed hi stale List.mem_cons_self
      fun hclean => ho ▸ hreuses t rfl hclean), fun u hu hclean => ?_⟩
    obtain rfl := Except.ok.inj hu
    exact ⟨_, get?_set_self hi _, hclean, rfl⟩

/-- The parts that children give are held while the others are asked for. -/
structure Gathers (P : Handle → Prop) (clean : Prop) (held : List SharedTree) (W : Workspace)
    (parts : List (Handle × SharedTree)) (V : Workspace) : Prop where
  kept : Kept P W.outline V.outline
  closed : V.outline.DirtyClosed
  grows : Grows P held W (parts.map Prod.snd ++ held) V
  remembered : clean → ∀ q ∈ parts, V.outline.Remembers q.1 q.2

namespace Gathers

variable {clean : Prop} {parts : List (Handle × SharedTree)} {c : Handle}

/-- A child that gives no part. -/
theorem next {given : List SharedTree} (G : Gathers P clean held W parts V)
    (k : Kept P V.outline W'.outline) (d : W'.outline.DirtyClosed)
    (g : Grows P (parts.map Prod.snd ++ held) V (given ++ (parts.map Prod.snd ++ held)) W') :
    Gathers P clean held W parts W' := by
  refine ⟨k.after G.kept.cleared, d, (G.grows.trans g).shrink G.grows.subset
    (List.subset_append_right _ _), fun hclean q hq => ?_⟩
  exact g.lasts (G.remembered hclean q hq) (Tree.alive_of_mem
    (List.mem_append_left _ (List.mem_map_of_mem hq)))

/-- A child that gives a part. -/
theorem add (G : Gathers P clean held W parts V) (k : Kept P V.outline W'.outline)
    (d : W'.outline.DirtyClosed)
    (g : Grows P (parts.map Prod.snd ++ held) V (t :: (parts.map Prod.snd ++ held)) W')
    (hr : clean → W'.outline.Remembers c t) :
    Gathers P clean held W (parts ++ [(c, t)]) W' := by
  have given : Grows P (parts.map Prod.snd ++ held) V ([t] ++ (parts.map Prod.snd ++ held)) W' := g
  have N := G.next k d given
  have hsub : (parts ++ [(c, t)]).map Prod.snd ++ held ⊆ t :: (parts.map Prod.snd ++ held) := by
    intro u hu
    simp only [List.map_append, List.mem_append, List.map_cons, List.map_nil, List.mem_cons,
      List.not_mem_nil, or_false] at hu ⊢
    tauto
  refine ⟨N.kept, d, (G.grows.trans g).shrink (List.subset_append_right _ _) hsub,
    fun hclean q hq => ?_⟩
  rcases List.mem_append.mp hq with hq | hq
  · exact N.remembered hclean q hq
  · rw [List.mem_singleton.mp hq]
    exact hr hclean

end Gathers

/-- A directory of the parts that its children gave has what the folders and files in it remember. -/
theorem Intact.reuses_of_parts {parts : List (Handle × SharedTree)} (I : W.Intact held)
    (hi : W.outline.get? h = some i) (hfst : parts.map Prod.fst = i.children)
    (hheld : ∀ q ∈ parts, q.2 ∈ held) (hr : ∀ q ∈ parts, W.outline.Remembers q.1 q.2)
    (ht : t.entries = (parts.map fun q => W.outline.contributed q.1 q.2).flatten) :
    W.outline.Reuses h t := by
  have part : ∀ {c j}, c ∈ i.children → W.outline.get? c = some j →
      ∃ u, (c, u) ∈ parts ∧ ∀ e ∈ contribution j u, e ∈ t.entries := by
    intro c j hc hj
    rw [← hfst] at hc
    obtain ⟨⟨_, u⟩, hq, rfl⟩ := List.mem_map.mp hc
    refine ⟨u, hq, fun e he => ?_⟩
    rw [ht]
    refine List.mem_flatten.mpr ⟨_, List.mem_map_of_mem hq, ?_⟩
    unfold contributed
    rwa [hj, Option.elim_some]
  intro x j hw hj hpath
  cases hw with
  | child hi' hc =>
      rw [hi] at hi'
      obtain rfl := Option.some.inj hi'
      obtain ⟨u, hq, hsub⟩ := part hc hj
      refine ⟨u, (hr _ hq).cache hj, hsub _ ?_⟩
      rw [contribution, Kind.isTransparent_of_namesPath hpath]
      exact List.mem_singleton_self _
  | through hi' hc hk htransparent hw =>
      rw [hi] at hi'
      obtain rfl := Option.some.inj hi'
      obtain ⟨u, hq, hsub⟩ := part hc hk
      obtain ⟨v, hv, hmem⟩ := I.reuses (hr _ hq) (Tree.alive_of_mem (hheld _ hq)) hw hj hpath
      refine ⟨v, hv, hsub _ ?_⟩
      rwa [contribution, htransparent, if_pos rfl]

theorem reuses_of_file (w : o.WellFormed) (hi : o.get? h = some i) (hk : i.kind = .file)
    (t : SharedTree) : o.Reuses h t := by
  intro x j hw
  obtain ⟨i', c, hi', hc, -⟩ := w.below_of_within hw
  rw [hi] at hi'
  rw [← Option.some.inj hi', w.children_file hi hk] at hc
  cases hc

theorem exec_remembering_file_grows {mark : Bool → Bool} {r : Except Failure SharedTree}
    (I : W.Intact held) (w : W.outline.WellFormed) (closed : W.outline.DirtyClosed)
    (hi : W.outline.get? h = some i) (hfile : i.kind = .file)
    (hstale : ∀ t, W.outline.Remembers h t → ¬ Alive held t)
    (hdoc : ∀ d ∈ W.outline.document, d ∈ held)
    (hx : exec (remembering h mark (fileImage h)) W = (r, W')) :
    Grows (· = h) held W (r.toOption.toList ++ held) W' ∧
      ∀ t, r = .ok t → mark i.dirty = false → W'.outline.Remembers h t := by
  refine exec_remembering_grows I w closed hi hstale (fun hrun => ?_) hx
  obtain ⟨g, ho⟩ := exec_fileImage_grows I hdoc hrun
  exact ⟨g, ho, fun t _ _ => reuses_of_file w hi hfile t⟩

/-- Asking children for their parts one by one. -/
theorem exec_gather {β : Type} (P : Handle → Prop) (clean : Prop)
    (view : β → List (Handle × SharedTree)) {step : β → Handle → Work β} {cs : List Handle}
    {b : β} {r : Except Failure β}
    (hstep : ∀ {b c V rc V'}, c ∈ cs → Gathers P clean held W (view b) V →
      exec (step b c) V = (rc, V') →
      (∀ e, rc = .error e → ∃ parts, Gathers P clean held W parts V') ∧
      ∀ b', rc = .ok b' → ∃ t, view b' = view b ++ [(c, t)] ∧ Gathers P clean held W (view b') V')
    (G : Gathers P clean held W (view b) V) (hx : exec (cs.foldlM step b) V = (r, W')) :
    (∀ e, r = .error e → ∃ parts, Gathers P clean held W parts W') ∧
      ∀ b', r = .ok b' → (view b').map Prod.fst = (view b).map Prod.fst ++ cs ∧
        Gathers P clean held W (view b') W' := by
  induction cs generalizing b V with
  | nil =>
      obtain ⟨rfl, rfl⟩ := Prod.mk.inj hx
      refine ⟨nofun, fun b' hb' => ?_⟩
      rw [← Except.ok.inj hb', List.append_nil]
      exact ⟨rfl, G⟩
  | cons c cs ih =>
      rw [List.foldlM_cons] at hx
      rcases hc : exec (step b c) V with ⟨rc, V₁⟩
      obtain ⟨hfail, hok⟩ := hstep List.mem_cons_self G hc
      cases rc with
      | error e =>
          rw [exec_bind_of_error hc] at hx
          obtain ⟨rfl, rfl⟩ := Prod.mk.inj hx
          exact ⟨fun _ _ => hfail e rfl, nofun⟩
      | ok b₁ =>
          rw [exec_bind_of_ok hc] at hx
          obtain ⟨t, hview, G₁⟩ := hok b₁ rfl
          obtain ⟨hfail', hok'⟩ := ih (fun hmem => hstep (List.mem_cons_of_mem _ hmem)) G₁ hx
          refine ⟨hfail', fun b' hb' => ?_⟩
          obtain ⟨hfst, G'⟩ := hok' b' hb'
          refine ⟨?_, G'⟩
          rw [hfst, hview, List.map_append, List.append_assoc]
          rfl

theorem Gathers.start {clean : Prop} (I : W.Intact held) (co : W.outline.Coherent)
    (d : W.outline.DirtyClosed) : Gathers P clean held W [] W :=
  ⟨⟨.refl P _, co⟩, d, .refl P I, fun _ q hq => by cases hq⟩

/-- What asking for the image of an item does to memory. -/
structure Asked (o : Outline) (h : Handle) (held : List SharedTree) (W : Workspace)
    (r : Except Failure SharedTree) (W' : Workspace) : Prop where
  grows : Grows (o.Below h) held W (r.toOption.toList ++ held) W'
  remembered : ∀ {t i}, r = .ok t → W.outline.get? h = some i → i.dirty = false →
    W'.outline.Remembers h t

theorem Gathers.note {clean : Prop} {parts : List (Handle × SharedTree)}
    (G : Gathers P clean held W parts V) (notices : List Notice) :
    Gathers P clean held W parts { V with notices } :=
  ⟨G.kept, G.closed, G.grows.note notices, G.remembered⟩

/-- The parts are dropped when some child gives none. -/
theorem Gathers.drop {clean : Prop} {parts : List (Handle × SharedTree)}
    (G : Gathers P clean held W parts V) : Grows P held W held V :=
  G.grows.shrink (fun _ ht => ht) (List.subset_append_right _ _)

theorem Gathers.ask {made : List SharedTree} {levels : Nat} {clean : Prop}
    {parts : List (Handle × SharedTree)} {c : Handle} {r : Except Failure SharedTree}
    (G : Gathers P clean (made ++ held) W parts V) (w : o.WellFormed) (a : o.Attached)
    (hf : o.Fits levels c) (st : SameTree o V.outline) (hP : ∀ {x}, o.Below c x → P x)
    (hclean : clean → ∀ k, V.outline.get? c = some k → k.dirty = false)
    (hrun : exec (imageAt held levels (parts.map Prod.snd ++ made) c) V = (r, W'))
    (A : Asked o c (parts.map Prod.snd ++ made ++ held) V r W') :
    (∀ e, r = .error e → Gathers P clean (made ++ held) W parts W') ∧
      ∀ t, r = .ok t → Gathers P clean (made ++ held) W (parts ++ [(c, t)]) W' := by
  have k := (exec_imageAt w a hf st G.kept.coherent hrun).2
  have d := k.cleared.dirtyClosed G.closed
  have g := A.grows.mono hP
  rw [List.append_assoc] at g
  refine ⟨fun e he => G.next (k.mono False.elim) d g, fun t ht => ?_⟩
  subst ht
  refine G.add (k.mono False.elim) d g fun hc => ?_
  obtain ⟨i, hi⟩ : ∃ i, V.outline.get? c = some i := by
    cases levels with
    | zero => exact hf.elim
    | succ n =>
        obtain ⟨i₀, hi₀, -⟩ := hf
        obtain ⟨i, hi, -⟩ := st.agree.get?_eq_some hi₀
        exact ⟨i, hi⟩
  exact A.remembered rfl hi (hclean hc i hi)

/-- The directory of the parts that the children gave is remembered. -/
theorem Gathers.remember {clean : Prop} {parts : List (Handle × SharedTree)} {mark : Bool → Bool}
    {r : Except Failure SharedTree} (G : Gathers P clean held W parts V) (I : W.Intact held)
    (w : V.outline.WellFormed) (hi : W.outline.get? h = some i) (hh : ¬ P h)
    (hfst : parts.map Prod.fst = i.children)
    (hstale : ∀ t, W.outline.Remembers h t → ¬ Alive held t) (hclean : mark i.dirty = false → clean)
    (hx : exec (remembering h mark (assemble h parts)) V = (r, W')) :
    Grows (fun x => P x ∨ x = h) held W (r.toOption.toList ++ held) W' ∧
      ∀ t, r = .ok t → mark i.dirty = false → W'.outline.Remembers h t := by
  have hiV : V.outline.get? h = some i := by rw [G.grows.off hh, hi]
  have hheld : ∀ q ∈ parts, q.2 ∈ parts.map Prod.snd ++ held := fun q hq =>
    List.mem_append_left _ (List.mem_map_of_mem hq)
  have live : ∀ q ∈ parts, ∃ k, V.outline.get? q.1 = some k := by
    intro q hq
    obtain ⟨k, hk, -⟩ := w.child hiV (hfst ▸ List.mem_map_of_mem hq)
    exact ⟨k, hk⟩
  -- asking the children wrote nothing at the item itself, and nothing that was gone came back
  have stale : ∀ t, V.outline.Remembers h t → ¬ Alive (parts.map Prod.snd ++ held) t := by
    rintro t ⟨j, hj, hr⟩ ha
    have hr : W.outline.Remembers h t := ⟨j, (G.grows.off hh) ▸ hj, hr⟩
    exact hstale t hr (G.grows.old (I.label_lt hr) ha)
  obtain ⟨g, hr⟩ := exec_remembering_grows G.grows.intact w G.closed hiV stale
    (fun {r₁ V₁} hrun => by
      obtain ⟨g, ho, hentries⟩ := exec_assemble_grows G.grows.intact hheld live hrun
      exact ⟨g, ho, fun t ht hmark => G.grows.intact.reuses_of_parts hiV hfst hheld
        (G.remembered (hclean hmark)) (hentries t ht)⟩) hx
  refine ⟨?_, hr⟩
  refine ((G.grows.mono Or.inl).trans (g.mono Or.inr)).shrink (List.subset_append_right _ _) ?_
  exact List.append_subset.mpr ⟨List.subset_append_left _ _,
    List.subset_append_of_subset_right _ (List.subset_append_right _ _)⟩

theorem exec_imageParts_grows {held made : List SharedTree} {levels : Nat} {cs : List Handle}
    {clean : Prop} {r : Except Failure (List (Handle × SharedTree))} (w : o.WellFormed)
    (a : o.Attached) (hf : ∀ c ∈ cs, o.Fits levels c)
    (ih : ∀ {c made V V'} {r : Except Failure SharedTree}, c ∈ cs → SameTree o V.outline →
      V.outline.Coherent → V.outline.DirtyClosed → V.Intact (made ++ held) →
      exec (imageAt held levels made c) V = (r, V') → Asked o c (made ++ held) V r V')
    (st : SameTree o W.outline) (co : W.outline.Coherent) (d : W.outline.DirtyClosed)
    (I : W.Intact (made ++ held))
    (hclean : clean → ∀ c ∈ cs, ∀ k, W.outline.get? c = some k → k.dirty = false)
    (hx : exec (imageParts held levels made cs) W = (r, W')) :
    (∀ e, r = .error e → ∃ parts,
      Gathers (fun x => ∃ c ∈ cs, o.Below c x) clean (made ++ held) W parts W') ∧
    ∀ parts, r = .ok parts → parts.map Prod.fst = cs ∧
      Gathers (fun x => ∃ c ∈ cs, o.Below c x) clean (made ++ held) W parts W' := by
  refine exec_gather _ clean (fun parts => parts) ?_ (.start I co d) hx
  intro parts c V rc V' hmem G hstep
  have stV := st.trans G.kept.cleared.tree
  obtain ⟨rp, hrun, rfl⟩ := imagePart_of_exec hstep
  have A := ih hmem stV G.kept.coherent G.closed (List.append_assoc .. ▸ G.grows.intact) hrun
  obtain ⟨hfail, hok⟩ := G.ask w a (hf c hmem) stV (fun hb => ⟨c, hmem, hb⟩)
    (fun hc => G.kept.cleared.clean (hclean hc c hmem)) hrun A
  cases rp with
  | error e => exact ⟨fun _ _ => ⟨parts, hfail e rfl⟩, nofun⟩
  | ok t => exact ⟨nofun, fun b' hb' => Except.ok.inj hb' ▸ ⟨t, rfl, hok t rfl⟩⟩

/-- Asking for an image leaves memory intact, and a clean item remembers what it gives. -/
theorem exec_imageAt_grows {held made : List SharedTree} {levels : Nat}
    {r : Except Failure SharedTree} (w : o.WellFormed) (a : o.Attached) (hf : o.Fits levels h)
    (st : SameTree o W.outline) (co : W.outline.Coherent) (d : W.outline.DirtyClosed)
    (hdoc : ∀ t ∈ o.document, t ∈ held) (I : W.Intact (made ++ held))
    (hx : exec (imageAt held levels made h) W = (r, W')) : Asked o h (made ++ held) W r W' := by
  induction levels generalizing made h W r W' with
  | zero => exact hf.elim
  | succ levels ih =>
      obtain ⟨i₀, hi₀, hc⟩ := hf
      obtain ⟨i, hi, hb⟩ := st.agree.get?_eq_some hi₀
      obtain ⟨-, -, -, hchildren⟩ := Item.frame_eq_iff.mp (Item.bare_eq_iff.mp hb).1
      have w₀ := st.wellFormed w
      have same : ∀ {j}, W.outline.get? h = some j → j = i := fun hj =>
        Option.some.inj (hj.symm.trans hi)
      have inside : ∀ {x}, (∃ c ∈ i.children, o.Below c x) → o.Below h x :=
        fun hx => w.below_of_children hi₀ (hchildren ▸ hx)
      have outside : ¬ ∃ c ∈ i.children, o.Below c h :=
        hchildren ▸ w.not_below_children hi₀
      have clean_child : i.dirty = false → ∀ c ∈ i.children, ∀ k, W.outline.get? c = some k →
          k.dirty = false :=
        fun hclean c hmem k hk => d.clean_below (w₀.below_child hi hmem) hi hclean hk
      have stale : i.cached (made ++ held) = none →
          ∀ t, W.outline.Remembers h t → ¬ Alive (made ++ held) t := by
        intro hcached t hr ha
        rw [(I.cached_iff hi).mpr ⟨hr, ha⟩] at hcached
        cases hcached
      have gathered {rp V} (hparts : exec (imageParts held levels made i.children) W = (rp, V)) :=
        exec_imageParts_grows w a (fun c hmem => hc c (hchildren ▸ hmem))
          (fun hmem => ih (hc _ (hchildren ▸ hmem))) st co d I clean_child hparts
      cases imageRun_of_exec hi hx with
      | cached hcached =>
          obtain ⟨hr, ha⟩ := (I.cached_iff hi).mp hcached
          exact ⟨(Grows.hold I ha).note _, fun hu _ _ => Except.ok.inj hu ▸ hr⟩
      | file hcached hfile hmade =>
          obtain ⟨g, hr⟩ := exec_remembering_file_grows I w₀ d hi hfile (stale hcached)
            (fun t ht => List.mem_append_right _ (hdoc t (st.document ▸ ht))) hmade
          exact ⟨g.mono fun hx => hx ▸ .self, fun ht hj hclean => hr _ ht (same hj ▸ hclean)⟩
      | failed _ _ hparts =>
          obtain ⟨parts, G⟩ := (gathered hparts).1 _ rfl
          exact ⟨G.drop.mono inside, nofun⟩
      | dir hcached _ hparts hmade =>
          obtain ⟨hfst, G⟩ := (gathered hparts).2 _ rfl
          obtain ⟨g, hr⟩ := G.remember I ((st.trans G.kept.cleared.tree).wellFormed w) hi outside
            hfst (stale hcached) (fun hclean => hclean) hmade
          refine ⟨g.mono ?_, fun ht hj hclean => hr _ ht (same hj ▸ hclean)⟩
          rintro x (hx | rfl)
          · exact inside hx
          · exact .self

/-- What refreshing an item does to memory. -/
structure Renewed (o : Outline) (h : Handle) (held : List SharedTree) (W : Workspace)
    (r : Except Failure (Option SharedTree)) (W' : Workspace) : Prop where
  grows : Grows (o.Below h) held W (r.toOption.join.toList ++ held) W'
  remembered : ∀ {t}, r = .ok (some t) → W'.outline.Remembers h t

theorem exec_refreshParts_grows {held made : List SharedTree} {levels : Nat} {cs : List Handle}
    {r : Except Failure (List (Handle × SharedTree) × Nat)} (w : o.WellFormed) (a : o.Attached)
    (hf : ∀ c ∈ cs, o.Fits levels c) (hdoc : ∀ t ∈ o.document, t ∈ held)
    (ih : ∀ {c made V V'} {r : Except Failure (Option SharedTree)}, c ∈ cs →
      SameTree o V.outline → V.outline.Coherent → V.outline.DirtyClosed → V.Intact (made ++ held) →
      exec (refreshAt held levels made c) V = (r, V') → Renewed o c (made ++ held) V r V')
    (st : SameTree o W.outline) (co : W.outline.Coherent) (d : W.outline.DirtyClosed)
    (I : W.Intact (made ++ held))
    (hx : exec (refreshParts held levels made cs) W = (r, W')) :
    (∀ e, r = .error e → ∃ parts,
      Gathers (fun x => ∃ c ∈ cs, o.Below c x) True (made ++ held) W parts W') ∧
    ∀ b, r = .ok b → b.1.map Prod.fst = cs ∧
      Gathers (fun x => ∃ c ∈ cs, o.Below c x) True (made ++ held) W b.1 W' := by
  refine exec_gather _ True Prod.fst ?_ (.start I co d) hx
  rintro ⟨parts, fresh⟩ c V rc V' hmem G hstep
  have stV := st.trans G.kept.cleared.tree
  have hP : ∀ {x}, o.Below c x → ∃ c ∈ cs, o.Below c x := fun hb => ⟨c, hmem, hb⟩
  have refreshed : ∀ {V₁} {rr : Except Failure (Option SharedTree)},
      exec (refreshAt held levels (parts.map Prod.snd ++ made) c) V = (rr, V₁) →
      Refreshed o c V V₁ rr ∧ Renewed o c (parts.map Prod.snd ++ (made ++ held)) V rr V₁ := by
    intro V₁ rr hrun
    have N := ih hmem stV G.kept.coherent G.closed (List.append_assoc .. ▸ G.grows.intact) hrun
    exact ⟨exec_refreshAt w a (hf c hmem) stV G.kept.coherent G.closed hrun,
      List.append_assoc .. ▸ N⟩
  cases partRun_of_exec hstep with
  | failed hrun =>
      obtain ⟨R, N⟩ := refreshed hrun
      exact ⟨fun _ _ => ⟨parts, G.next (R.kept.mono hP) R.closed (N.grows.mono hP)⟩, nofun⟩
  | @renewed t _ hrun =>
      obtain ⟨R, N⟩ := refreshed hrun
      have G₁ := G.add (c := c) (R.kept.mono hP) R.closed (N.grows.mono hP) fun _ => N.remembered rfl
      exact ⟨nofun, fun b' hb' => Except.ok.inj hb' ▸ ⟨t, rfl, G₁⟩⟩
  | @asked V₁ rp _ hrun himage =>
      obtain ⟨R, N⟩ := refreshed hrun
      have G₁ := G.next (R.kept.mono hP) R.closed (N.grows.mono hP)
      have stV₁ := stV.trans R.kept.cleared.tree
      have A := exec_imageAt_grows w a (hf c hmem) stV₁ G₁.kept.coherent G₁.closed hdoc
        (List.append_assoc .. ▸ G₁.grows.intact) himage
      obtain ⟨hfail, hok⟩ := G₁.ask w a (hf c hmem) stV₁ hP
        (fun _ k hk => R.clean rfl .self hk) himage A
      cases rp with
      | error e => exact ⟨fun _ _ => ⟨parts, hfail e rfl⟩, nofun⟩
      | ok t => exact ⟨nofun, fun b' hb' => Except.ok.inj hb' ▸ ⟨t, rfl, hok t rfl⟩⟩

theorem Renewed.of_made {r : Except Failure SharedTree}
    (g : Grows (o.Below h) held W (r.toOption.toList ++ held) W')
    (hr : ∀ t, r = .ok t → W'.outline.Remembers h t) : Renewed o h held W (r.map some) W' := by
  cases r with
  | error e => exact ⟨g, nofun⟩
  | ok t => exact ⟨g, fun hu => hr _ (congrArg Except.ok (Option.some.inj (Except.ok.inj hu)))⟩

/-- Refreshing an item leaves memory intact, and the item remembers what it gives. -/
theorem exec_refreshAt_grows {held made : List SharedTree} {levels : Nat}
    {r : Except Failure (Option SharedTree)} (w : o.WellFormed) (a : o.Attached)
    (hf : o.Fits levels h) (st : SameTree o W.outline) (co : W.outline.Coherent)
    (d : W.outline.DirtyClosed) (hdoc : ∀ t ∈ o.document, t ∈ held) (I : W.Intact (made ++ held))
    (hx : exec (refreshAt held levels made h) W = (r, W')) : Renewed o h (made ++ held) W r W' := by
  induction levels generalizing made h W r W' with
  | zero => exact hf.elim
  | succ levels ih =>
      obtain ⟨i₀, hi₀, hc⟩ := hf
      obtain ⟨i, hi, hb⟩ := st.agree.get?_eq_some hi₀
      obtain ⟨-, -, -, hchildren⟩ := Item.frame_eq_iff.mp (Item.bare_eq_iff.mp hb).1
      have w₀ := st.wellFormed w
      have inside : ∀ {x}, (∃ c ∈ i.children, o.Below c x) → o.Below h x :=
        fun hx => w.below_of_children hi₀ (hchildren ▸ hx)
      have outside : ¬ ∃ c ∈ i.children, o.Below c h :=
        hchildren ▸ w.not_below_children hi₀
      have stale : i.dirty = true → ∀ t, W.outline.Remembers h t → ¬ Alive (made ++ held) t := by
        rintro hd t ⟨j, hj, hclean, -⟩
        exact absurd hclean (not_clean_of_get? hi hd hj)
      have gathered {rp V} (hparts : exec (refreshParts held levels made i.children) W = (rp, V)) :=
        exec_refreshParts_grows w a (fun c hmem => hc c (hchildren ▸ hmem)) hdoc
          (fun hmem => ih (hc _ (hchildren ▸ hmem))) st co d I hparts
      cases refreshRun_of_exec hi hx with
      | clean => exact ⟨.refl _ I, nofun⟩
      | file hd hfile hmade =>
          obtain ⟨g, hr⟩ := exec_remembering_file_grows I w₀ d hi hfile (stale hd)
            (fun t ht => List.mem_append_right _ (hdoc t (st.document ▸ ht))) hmade
          exact .of_made (g.mono fun hx => hx ▸ .self) fun t ht => hr t ht rfl
      | failed _ _ hparts =>
          obtain ⟨parts, G⟩ := (gathered hparts).1 _ rfl
          exact ⟨G.drop.mono inside, nofun⟩
      | @dir b V notices _ _ hd _ hparts hmade =>
          obtain ⟨hfst, G⟩ := (gathered hparts).2 _ rfl
          have wV := (st.trans G.kept.cleared.tree).wellFormed w
          obtain ⟨g, hr⟩ := (G.note notices).remember I wV hi outside hfst (stale hd)
            (fun _ => trivial) hmade
          refine .of_made (g.mono ?_) fun t ht => hr t ht rfl
          rintro x (hx | rfl)
          · exact inside hx
          · exact .self

end Workspace

end PackageOutline
