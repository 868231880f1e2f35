import PackageOutline.Proofs.Outline.WellFormed

/-! # Changes of the tree

What each kind of change of an arena asks for to leave a well-formed outline behind.

* `WellFormed.setChildren`: an item gets other children.
* `WellFormed.setName`: an item gets another name.
* `WellFormed.grow`: there is a new item, not attached to its parent yet.
* `WellFormed.drop`: some items are gone, and with each of them those below it. -/

namespace PackageOutline

namespace Outline

variable {o o' : Outline} {h p : Handle} {i j : Item}

/-! ### Children -/

theorem WellFormed.setChildren (w : o.WellFormed) (hj : o.get? p = some j) {cs : List Handle}
    (hnd : cs.Nodup) (hc : ∀ c ∈ cs, ∃ i, o.get? c = some i ∧ i.parent = some p)
    (hs : ∀ {c d i k}, c ∈ cs → d ∈ cs → o.get? c = some i → o.get? d = some k →
      i.name = k.name → c = d) : (o.set p { j with children := cs }).WellFormed := by
  refine w.of_stem (.set hj rfl) ?_ ?_ ?_
  · intro q k c hk hmem
    rcases of_get?_set hj hk with ⟨rfl, rfl⟩ | ⟨-, hk⟩
    · exact hc c hmem
    · exact w.child hk hmem
  · intro q k hk
    rcases of_get?_set hj hk with ⟨-, rfl⟩ | ⟨-, hk⟩
    · exact hnd
    · exact w.nodup hk
  · intro q k c d i m hk hmemc hmemd hi hm hn
    rcases of_get?_set hj hk with ⟨-, rfl⟩ | ⟨-, hk⟩
    · exact hs hmemc hmemd hi hm hn
    · exact w.siblings hk hmemc hmemd hi hm hn

theorem WellFormed.permute (w : o.WellFormed) (hj : o.get? p = some j) {cs : List Handle}
    (hcs : cs.Perm j.children) : (o.set p { j with children := cs }).WellFormed :=
  w.setChildren hj (hcs.nodup_iff.mpr (w.nodup hj)) (fun _ hc => w.child hj (hcs.mem_iff.mp hc))
    fun hc hd => w.siblings hj (hcs.mem_iff.mp hc) (hcs.mem_iff.mp hd)

theorem Attached.permute (a : o.Attached) (hj : o.get? p = some j) {cs : List Handle}
    (hcs : cs.Perm j.children) : (o.set p { j with children := cs }).Attached := by
  have old : AgreeOn Item.stem o (o.set p { j with children := cs }) := .set hj rfl
  intro x k hk hx
  obtain ⟨k₀, hk₀, hf⟩ := old.symm.get?_eq_some hk
  obtain ⟨q, m, hq, hm, hmem⟩ := a hk₀ hx
  rw [(Item.stem_eq_iff.mp hf).2.2] at hq
  by_cases hqp : q = p
  · subst hqp
    rw [hj] at hm
    obtain rfl := Option.some.inj hm
    exact ⟨q, _, hq, get?_set_self hj _, hcs.mem_iff.mpr hmem⟩
  · exact ⟨q, m, hq, by rw [get?_set_of_ne hj _ hqp, hm], hmem⟩

/-! ### Names -/

theorem WellFormed.setName (w : o.WellFormed) (hi : o.get? h = some i) {name : String}
    (hv : h ≠ Outline.root → Identifier.isValid name = true)
    (hg : i.kind = .group → Identifier.isGroup name = true)
    (hs : ∀ {p j c k}, i.parent = some p → o.get? p = some j → c ∈ j.children → c ≠ h →
      o.get? c = some k → k.name ≠ name) : (o.set h { i with name }).WellFormed := by
  have old : ∀ {x k}, (o.set h { i with name }).get? x = some k → ∃ k₀, o.get? x = some k₀ ∧
      k₀.kind = k.kind ∧ k₀.children = k.children ∧ k.name = if x = h then name else k₀.name := by
    intro x k hk
    rcases of_get?_set hi hk with ⟨rfl, rfl⟩ | ⟨hx, hk⟩
    · exact ⟨i, hi, rfl, rfl, by rw [if_pos rfl]⟩
    · exact ⟨k, hk, rfl, rfl, by rw [if_neg hx]⟩
  -- a child that is not `h` cannot share a list of children with `h` and have the new name
  have apart : ∀ {q m c k}, o.get? q = some m → h ∈ m.children → c ∈ m.children → c ≠ h →
      o.get? c = some k → k.name ≠ name := by
    intro q m c k hm hh hc hch hk
    obtain ⟨i', hi', hq⟩ := w.child hm hh
    rw [hi] at hi'
    obtain rfl := Option.some.inj hi'
    exact hs hq hm hc hch hk
  have ag : AgreeOn Item.standing o (o.set h { i with name }) := .set hi rfl
  apply w.of_standing ag
  case child =>
    intro q k c hk hc
    obtain ⟨k₀, hk₀, -, hcs, -⟩ := old hk
    exact w.child hk₀ (hcs ▸ hc)
  case nodup =>
    intro q k hk
    obtain ⟨k₀, hk₀, -, hcs, -⟩ := old hk
    exact hcs ▸ w.nodup hk₀
  case siblings =>
    intro q k c d m n hk hc hd hm hn hmn
    obtain ⟨k₀, hk₀, -, hcs, -⟩ := old hk
    obtain ⟨m₀, hm₀, -, -, hmname⟩ := old hm
    obtain ⟨n₀, hn₀, -, -, hnname⟩ := old hn
    rw [← hcs] at hc hd
    rw [hmname, hnname] at hmn
    by_cases hch : c = h
    · by_cases hdh : d = h
      · rw [hch, hdh]
      · rw [if_pos hch, if_neg hdh] at hmn
        exact absurd hmn.symm (apart hk₀ (hch ▸ hc) hd hdh hn₀)
    · by_cases hdh : d = h
      · rw [if_neg hch, if_pos hdh] at hmn
        exact absurd hmn (apart hk₀ (hdh ▸ hd) hc hch hm₀)
      · rw [if_neg hch, if_neg hdh] at hmn
        exact w.siblings hk₀ hc hd hm₀ hn₀ hmn
  case valid =>
    intro x k hk hx
    obtain ⟨k₀, hk₀, -, -, hname⟩ := old hk
    rw [hname]
    split
    · rename_i hxh
      exact hv (hxh ▸ hx)
    · exact w.valid hk₀ hx
  case group =>
    intro x k hk hgroup
    obtain ⟨k₀, hk₀, hkk, -, hname⟩ := old hk
    rw [hname]
    split
    · rename_i hxh
      rw [hxh, hi] at hk₀
      obtain rfl := Option.some.inj hk₀
      exact hg (hkk.trans hgroup)
    · exact (w.group hk₀ (hkk.trans hgroup)).2

/-! ### New items -/

theorem WellFormed.grow (w : o.WellFormed) (g : Gained h i o o') (hfree : o'.FreeExact)
    (hchildren : i.children = []) (hp : i.parent = some p) (hj : o.get? p = some j)
    (hadmits : j.kind.admits i.kind = true) (hvalid : Identifier.isValid i.name = true)
    (hgroup : i.kind = .group → p = Outline.root ∧ Identifier.isGroup i.name = true)
    (hno : ∀ {x k}, o.get? x = some k → k.parent ≠ some h) : o'.WellFormed := by
  have parents : ∀ {q m c}, o'.get? q = some m → c ∈ m.children → o.get? q = some m := by
    intro q m c hm hc
    rcases g.new_or_old hm with ⟨-, rfl⟩ | hm
    · rw [hchildren] at hc
      cases hc
    · exact hm
  have oldAt : ∀ {q m c k}, o.get? q = some m → c ∈ m.children → o'.get? c = some k →
      o.get? c = some k := by
    intro q m c k hm hc hk
    obtain ⟨k₀, hk₀, -⟩ := w.child hm hc
    rw [g.elsewhere hk₀] at hk
    rw [hk₀, hk]
  constructor
  case root =>
    obtain ⟨r, hr, hrest⟩ := w.root
    exact ⟨r, g.elsewhere hr, hrest⟩
  case free => exact hfree
  case child =>
    intro q m c hm hc
    obtain ⟨k, hk, hq⟩ := w.child (parents hm hc) hc
    exact ⟨k, g.elsewhere hk, hq⟩
  case placed =>
    intro x k q m hk hq hm
    rcases g.new_or_old hk with ⟨-, rfl⟩ | hk
    · rw [hp] at hq
      obtain rfl := Option.some.inj hq
      rw [g.elsewhere hj] at hm
      obtain rfl := Option.some.inj hm
      exact hadmits
    · rcases g.new_or_old hm with ⟨rfl, -⟩ | hm
      · exact absurd hq (hno hk)
      · exact w.placed hk hq hm
  case nodup =>
    intro q m hm
    rcases g.new_or_old hm with ⟨-, rfl⟩ | hm
    · rw [hchildren]
      exact List.nodup_nil
    · exact w.nodup hm
  case siblings =>
    intro q m c d k n hm hc hd hk hn hkn
    have hm₀ := parents hm hc
    exact w.siblings hm₀ hc hd (oldAt hm₀ hc hk) (oldAt hm₀ hd hn) hkn
  case orphan =>
    intro x k hk hnoparent
    rcases g.new_or_old hk with ⟨-, rfl⟩ | hk
    · rw [hp] at hnoparent
      cases hnoparent
    · exact w.orphan hk hnoparent
  case valid =>
    intro x k hk hx
    rcases g.new_or_old hk with ⟨-, rfl⟩ | hk
    · exact hvalid
    · exact w.valid hk hx
  case group =>
    intro x k hk hkind
    rcases g.new_or_old hk with ⟨-, rfl⟩ | hk
    · obtain ⟨rfl, hname⟩ := hgroup hkind
      exact ⟨hp, hname⟩
    · exact w.group hk hkind
  case ranked =>
    obtain ⟨rank, hr⟩ := w.ranked
    refine ⟨fun x => if x = h then rank p + 1 else rank x, ?_⟩
    intro x k q m hk hq hm
    simp only
    rcases g.new_or_old hk with ⟨rfl, rfl⟩ | hk
    · rw [hp] at hq
      obtain rfl := Option.some.inj hq
      rw [if_neg (g.ne hj), if_pos rfl]
      exact Nat.lt_succ_self _
    · rcases g.new_or_old hm with ⟨rfl, -⟩ | hm
      · exact absurd hq (hno hk)
      · rw [if_neg (g.ne hk), if_neg (g.ne hm)]
        exact hr hk hq hm

/-! ### Fewer items -/

theorem WellFormed.drop (w : o.WellFormed) (gone : Handle → Prop) (hroot : ¬ gone Outline.root)
    (hgone : ∀ {x}, gone x → o'.get? x = none) (hget : ∀ {x}, ¬ gone x → o'.get? x = o.get? x)
    (hfree : o'.FreeExact)
    (hchild : ∀ {q m c}, o.get? q = some m → ¬ gone q → c ∈ m.children → ¬ gone c) :
    o'.WellFormed := by
  have old : ∀ {x k}, o'.get? x = some k → ¬ gone x ∧ o.get? x = some k := by
    intro x k hk
    by_cases hx : gone x
    · rw [hgone hx] at hk
      cases hk
    · exact ⟨hx, by rw [← hget hx, hk]⟩
  constructor
  case root =>
    obtain ⟨r, hr, hrest⟩ := w.root
    exact ⟨r, by rw [hget hroot, hr], hrest⟩
  case free => exact hfree
  case child =>
    intro q m c hm hc
    obtain ⟨hq, hm⟩ := old hm
    obtain ⟨k, hk, hp⟩ := w.child hm hc
    exact ⟨k, by rw [hget (hchild hm hq hc), hk], hp⟩
  case placed =>
    intro x k q m hk hq hm
    exact w.placed (old hk).2 hq (old hm).2
  case nodup => exact fun hm => w.nodup (old hm).2
  case siblings =>
    intro q m c d k n hm hc hd hk hn hkn
    exact w.siblings (old hm).2 hc hd (old hk).2 (old hn).2 hkn
  case orphan => exact fun hk => w.orphan (old hk).2
  case valid => exact fun hk => w.valid (old hk).2
  case group => exact fun hk => w.group (old hk).2
  case ranked =>
    obtain ⟨rank, hr⟩ := w.ranked
    exact ⟨rank, fun hk hq hm => hr (old hk).2 hq (old hm).2⟩

end Outline

end PackageOutline
