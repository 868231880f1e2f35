import PackageOutline.Proofs.Outline.PathEdits

/-! # Changes of order in the image

When the children of an item are put into another order, the image of the root keeps its directories
and files.  What the families of the children show stays together and follows the new order of the
children, in the one directory in which they all lie (`Outline.Rearranged`). -/

namespace PackageOutline

namespace Outline

variable {α : Type} {o : Outline} {p x : Handle} {i j : Item} {children cs : List Handle}
  {names : List String}

/-- The names that the folders and files at and below an item have in the directory at a path. -/
def shownIn (o : Outline) (names : List String) (x : Handle) : List String :=
  (o.family x).filterMap (o.nameBelow names)

/-- The second tree is the first one after the children of an item were put into another order: it
has the same directories and files, what children show in a directory follows their order, and only
the directory that the item lies in, or is, can be in another order. -/
structure Rearranged (o : Outline) (p : Handle) (children children' : List Handle) (t u : Tree α) :
    Prop where
  named : u.WellNamed
  top : u.isDir = true
  same : ∀ names c, (∃ v, u.find? names = some v ∧ v.contents? = c) ↔
    ∃ v, t.find? names = some v ∧ v.contents? = c
  order : ∀ names v v', t.at? names = some v → u.at? names = some v' → ∃ before after,
    v.names = before ++ children.flatMap (o.shownIn names) ++ after ∧
      v'.names = before ++ children'.flatMap (o.shownIn names) ++ after
  elsewhere : ∀ names v v', o.diskNames p ≠ .ok names → t.at? names = some v →
    u.at? names = some v' → v'.names = v.names

/-! ### Families in another order -/

/-- In the family of an item that has `p` at or below it, what stands below `p` is put into the new
order, and nothing else. -/
theorem WellFormed.family_permute (w : o.WellFormed) (a : o.Attached) (hj : o.get? p = some j)
    (hcs : cs.Perm j.children) (hi : o.get? x = some i) :
    (¬ o.Below x p → (o.set p { j with children := cs }).family x = o.family x) ∧
      (o.Below x p → ∃ before after,
        o.family x = before ++ j.children.flatMap o.family ++ after ∧
          (o.set p { j with children := cs }).family x =
            before ++ cs.flatMap o.family ++ after) := by
  have w' := w.permute hj hcs
  refine w.child_induction (P := fun x =>
    (¬ o.Below x p → (o.set p { j with children := cs }).family x = o.family x) ∧
      (o.Below x p → ∃ before after,
        o.family x = before ++ j.children.flatMap o.family ++ after ∧
          (o.set p { j with children := cs }).family x =
            before ++ cs.flatMap o.family ++ after)) ?_ x i hi
  intro x i hi ih
  by_cases hxp : x = p
  · subst hxp
    rw [hj] at hi
    obtain rfl := Option.some.inj hi
    refine ⟨fun hn => absurd .self hn, fun _ => ⟨[x], [], ?_, ?_⟩⟩
    · rw [w.family_eq hj, List.append_nil, List.singleton_append]
    · rw [w'.family_eq (get?_set_self hj _), List.append_nil, List.singleton_append]
      congr 1
      refine List.flatMap_congr fun c hc => ?_
      have hmem := hcs.mem_iff.mp hc
      exact (ih c hmem).1 (w.not_below_parent hj hmem)
  have hi' : (o.set p { j with children := cs }).get? x = some i := by
    rw [get?_set_of_ne hj _ hxp, hi]
  rw [w.family_eq hi, w'.family_eq hi']
  refine ⟨fun hn => ?_, fun hb => ?_⟩
  · congr 1
    exact List.flatMap_congr fun c hc => (ih c hc).1 fun hcp => hn ((w.below_child hi hc).trans hcp)
  · obtain ⟨c, hc, hcp⟩ := (hb.cases_child w a hi).resolve_left (Ne.symm hxp)
    obtain ⟨first, last, hsplit⟩ := List.append_of_mem hc
    obtain ⟨before, after, hold, hnew⟩ := (ih c hc).2 hcp
    have hnd := w.nodup hi
    rw [hsplit, List.nodup_middle, List.nodup_cons] at hnd
    have beside : ∀ d ∈ first ++ last,
        (o.set p { j with children := cs }).family d = o.family d := by
      intro d hd
      have hmem : d ∈ i.children := by
        rw [hsplit]
        rcases List.mem_append.mp hd with hd | hd
        · exact List.mem_append_left _ hd
        · exact List.mem_append_right _ (List.mem_cons_of_mem _ hd)
      refine (ih d hmem).1 fun hdp => hnd.1 ?_
      rwa [w.children_disjoint hi hc hmem hcp hdp]
    refine ⟨x :: (first.flatMap o.family ++ before), after ++ last.flatMap o.family, ?_, ?_⟩
    · rw [hsplit, List.flatMap_append, List.flatMap_cons, hold]
      simp only [List.cons_append, List.append_assoc]
    · rw [hsplit, List.flatMap_append, List.flatMap_cons, hnew,
        List.flatMap_congr fun d hd => beside d (List.mem_append_left _ hd),
        List.flatMap_congr fun d hd => beside d (List.mem_append_right _ hd)]
      simp only [List.cons_append, List.append_assoc]

/-! ### One directory -/

theorem flatMap_eq_of_perm {α β : Type} {f : α → List β} {l l' : List α} (hp : l.Perm l')
    (hone : ∀ a ∈ l, ∀ b ∈ l, f a ≠ [] → f b ≠ [] → a = b) : l.flatMap f = l'.flatMap f := by
  induction hp with
  | nil => rfl
  | cons a _ ih =>
      rw [List.flatMap_cons, List.flatMap_cons, ih fun b hb c hc =>
        hone b (List.mem_cons_of_mem _ hb) c (List.mem_cons_of_mem _ hc)]
  | swap a b l =>
      simp only [List.flatMap_cons]
      by_cases ha : f a = []
      · simp [ha]
      by_cases hb : f b = []
      · simp [hb]
      rw [hone b (by simp) a (by simp) hb ha]
  | trans h₁ _ ih₁ ih₂ =>
      exact (ih₁ hone).trans (ih₂ fun a ha b hb =>
        hone a (h₁.mem_iff.mpr ha) b (h₁.mem_iff.mpr hb))

theorem WellFormed.nameBelow_eq_some (w : o.WellFormed) (a : o.Attached) (hi : o.get? x = some i)
    {n : String} (hn : o.nameBelow names x = some n) :
    o.isOnDisk x = true ∧ o.diskPath x = names ++ [n] := by
  unfold nameBelow at hn
  rw [hi, w.diskNames_of_get? a hi] at hn
  simp only at hn
  split at hn
  · rename_i hx
    obtain rfl := Option.some.inj hn
    exact ⟨by rw [isOnDisk_eq hi, hx.1], hx.2⟩
  · cases hn

theorem Complete.exists_directory (c : o.Complete) (w : o.WellFormed) (a : o.Attached)
    (hj : o.get? p = some j) {d : Handle} (hd : d ∈ j.children) (hne : o.diskPath p ≠ names)
    (hshown : o.shownIn names d ≠ []) :
    ∃ e ∈ o.onDisk Outline.root, o.Below d e ∧ o.diskPath e = names := by
  obtain ⟨n, hn⟩ := List.exists_mem_of_ne_nil _ hshown
  obtain ⟨y, hy, hyn⟩ := List.mem_filterMap.mp hn
  obtain ⟨k, hk, hkp⟩ := w.child hj hd
  obtain ⟨m, hm⟩ := w.live_of_mem_family hk hy
  obtain ⟨hdisk, hpath⟩ := w.nameBelow_eq_some a hm hyn
  have hdy : o.Below d y := w.below_of_mem_family hk hy
  have hnot : ¬ o.Below d p := w.not_below_parent hj hd
  have hpre := w.diskPath_prefix a ((w.below_child hj hd).trans hdy)
  rw [hpath, List.prefix_concat_iff] at hpre
  rcases hpre with hself | hpre
  · -- the path of `y` does not end at `p` already, for then `y` would be above `p`
    have hyp := c.below_of_prefix w a ((w.mem_onDisk_root_iff a).mpr ⟨w.reachable a hm, hdisk⟩) hj
      ((hself.trans hpath.symm) ▸ List.prefix_rfl)
    exact absurd (hdy.trans hyp) hnot
  · have hnames : names ≠ [] := by
      rintro rfl
      exact hne (List.prefix_nil.mp hpre)
    obtain ⟨e, he, hedisk, hepath⟩ := w.exists_above_at a hm hnames (hpath ▸ List.prefix_append _ _)
    obtain ⟨l, hl⟩ := w.exists_line a hm
    obtain ⟨m', hm'⟩ := hl.live e (hl.mem_iff.mpr he)
    refine ⟨e, (w.mem_onDisk_root_iff a).mpr ⟨w.reachable a hm', hedisk⟩, ?_, hepath⟩
    rcases he.linear hdy with hed | hde
    · cases hed with
      | self => exact .self
      | step hk' hq hep =>
          -- a directory above `d` is above `p`, and then it is that of `p`
          rw [hk] at hk'
          rw [← Option.some.inj hk', hkp] at hq
          obtain rfl := Option.some.inj hq
          have hback := w.diskPath_prefix a hep
          rw [hepath] at hback
          exact absurd (hpre.eq_of_length_le hback.length_le) hne
    · exact hde

theorem Complete.flatMap_shownIn (c : o.Complete) (w : o.WellFormed) (a : o.Attached)
    (hj : o.get? p = some j) (hcs : cs.Perm j.children) (hne : o.diskPath p ≠ names) :
    cs.flatMap (o.shownIn names) = j.children.flatMap (o.shownIn names) := by
  refine flatMap_eq_of_perm hcs fun d hd d' hd' hshown hshown' => ?_
  have hd := hcs.mem_iff.mp hd
  have hd' := hcs.mem_iff.mp hd'
  obtain ⟨e, her, hde, he⟩ := c.exists_directory w a hj hd hne hshown
  obtain ⟨e', her', hde', he'⟩ := c.exists_directory w a hj hd' hne hshown'
  obtain rfl := c.paths_of_diskPath w a her her' (he.trans he'.symm)
  exact w.children_disjoint hj hd hd' hde hde'

/-! ### The image in another order -/

theorem WellFormed.reachable_permute_iff (w : o.WellFormed) (a : o.Attached)
    (hj : o.get? p = some j) (hcs : cs.Perm j.children) :
    (o.set p { j with children := cs }).Reachable x ↔ o.Reachable x := by
  have w' := w.permute hj hcs
  have ag : AgreeOn Item.stem o (o.set p { j with children := cs }) := .set hj rfl
  constructor
  · intro hr
    obtain ⟨k', hk'⟩ := w'.live_of_reachable hr
    obtain ⟨k, hk, -⟩ := ag.symm.get?_eq_some hk'
    exact w.reachable a hk
  · intro hr
    obtain ⟨k, hk⟩ := w.live_of_reachable hr
    obtain ⟨k', hk', -⟩ := ag.get?_eq_some hk
    exact w'.reachable (a.permute hj hcs) hk'

theorem WellFormed.stays_permute (w : o.WellFormed) (a : o.Attached) (hj : o.get? p = some j)
    (hcs : cs.Perm j.children) (hi : o.get? x = some i) :
    Stays o (o.set p { j with children := cs }) x ∧
      (o.set p { j with children := cs }).data x = o.data x := by
  have ag : AgreeOn Item.stem o (o.set p { j with children := cs }) := .set hj rfl
  have agc : AgreeOn Item.contents o (o.set p { j with children := cs }) := .set hj rfl
  obtain ⟨l, hl⟩ := w.exists_line a hi
  have st := w.stays (w.permute hj hcs) hl fun y _ => ag.get y
  obtain ⟨i', hi', hc⟩ := agc.get?_eq_some hi
  refine ⟨st, ?_⟩
  unfold data
  rw [hi, hi', document_set, st.path, Option.bind_some, Option.bind_some, hc]

theorem WellFormed.nameBelow_permute (w : o.WellFormed) (a : o.Attached) (hj : o.get? p = some j)
    (hcs : cs.Perm j.children) (hi : o.get? x = some i) (names : List String) :
    (o.set p { j with children := cs }).nameBelow names x = o.nameBelow names x := by
  have ag : AgreeOn Item.stem o (o.set p { j with children := cs }) := .set hj rfl
  obtain ⟨st, hdata⟩ := w.stays_permute a hj hcs hi
  obtain ⟨i', hi', -⟩ := ag.get?_eq_some hi
  rw [w.nameBelow_eq a hi, (w.permute hj hcs).nameBelow_eq (a.permute hj hcs) hi', st.onDisk,
    record, record, st.path, st.file, hdata]

theorem Complete.permute (c : o.Complete) (w : o.WellFormed) (a : o.Attached)
    (hj : o.get? p = some j) (hcs : cs.Perm j.children) :
    (o.set p { j with children := cs }).Complete := by
  refine c.of_stays w a (w.permute hj hcs) (a.permute hj hcs) fun {x} hx => ?_
  have hr := (w.reachable_permute_iff a hj hcs).mp hx
  obtain ⟨k, hk⟩ := w.live_of_reachable hr
  obtain ⟨st, hdata⟩ := w.stays_permute a hj hcs hk
  exact ⟨hr, st, by rw [hdata]; exact id⟩

theorem WellFormed.mem_records_permute (w : o.WellFormed) (a : o.Attached)
    (hj : o.get? p = some j) (hcs : cs.Perm j.children) (e : List String × Option Bytes) :
    (∃ x ∈ (o.set p { j with children := cs }).onDisk Outline.root,
      (o.set p { j with children := cs }).record x = e) ↔
      ∃ x ∈ o.onDisk Outline.root, o.record x = e := by
  refine exists_congr fun x => ?_
  rw [w.mem_onDisk_root_iff a, (w.permute hj hcs).mem_onDisk_root_iff (a.permute hj hcs),
    w.reachable_permute_iff a hj hcs, and_assoc, and_assoc]
  refine and_congr_right fun hr => ?_
  obtain ⟨i, hi⟩ := w.live_of_reachable hr
  obtain ⟨st, hdata⟩ := w.stays_permute a hj hcs hi
  rw [record, record, st.onDisk, st.path, st.file, hdata]

/-- The image of the root after the children of an item were put into another order. -/
theorem WellFormed.rearranged (w : o.WellFormed) (a : o.Attached) (hj : o.get? p = some j)
    (hcs : cs.Perm j.children) {t u : SharedTree} (ht : o.plainImage Outline.root = .ok t.plain)
    (hu : (o.set p { j with children := cs }).plainImage Outline.root = .ok u.plain) :
    Rearranged o p j.children cs t u := by
  have w' := w.permute hj hcs
  have a' := a.permute hj hcs
  obtain ⟨r, hr, -⟩ := w.root
  obtain ⟨before, after, hold, hnew⟩ := (w.family_permute a hj hcs hr).2 (w.below_root a hj)
  have order : ∀ names v v', t.at? names = some v → u.at? names = some v' →
      v.names = before.filterMap (o.nameBelow names) ++
          j.children.flatMap (o.shownIn names) ++ after.filterMap (o.nameBelow names) ∧
        v'.names = before.filterMap (o.nameBelow names) ++
          cs.flatMap (o.shownIn names) ++ after.filterMap (o.nameBelow names) := by
    intro names v v' hv hv'
    constructor
    · rw [(w.shows a ht).order names v hv, hold, List.filterMap_append, List.filterMap_append,
        List.filterMap_flatMap]
      rfl
    · have hsame : ∀ x ∈ (o.set p { j with children := cs }).family Outline.root,
          (o.set p { j with children := cs }).nameBelow names x = o.nameBelow names x := by
        intro x hx
        obtain ⟨k, hk⟩ := w.live_of_reachable
          ((w.reachable_permute_iff a hj hcs).mp ((w'.mem_family_root a').mp hx))
        exact w.nameBelow_permute a hj hcs hk names
      rw [(w'.shows a' hu).order names v' hv', List.filterMap_congr hsame, hnew,
        List.filterMap_append, List.filterMap_append, List.filterMap_flatMap]
      rfl
  refine ⟨(w'.shows a' hu).named, (w'.shows a' hu).top, fun names c => ?_,
    fun names v v' hv hv' => ⟨_, _, order names v v' hv hv'⟩, fun names v v' hne hv hv' => ?_⟩
  · by_cases hn : names = []
    · subst hn
      exact iff_of_false (fun ⟨v, hv, _⟩ => by cases hv) fun ⟨v, hv, _⟩ => by cases hv
    · rw [w.find?_root a ht hn, w'.find?_root a' hu hn, w.mem_records_permute a hj hcs]
  · obtain ⟨hnames, hnames'⟩ := order names v v' hv hv'
    rw [w.diskNames_of_get? a hj] at hne
    rw [hnames, hnames', (w.complete_of_plainImage a ht).flatMap_shownIn w a hj hcs
      fun hp => hne (congrArg _ hp)]

end Outline

end PackageOutline
