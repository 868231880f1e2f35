import PackageOutline.Proofs.Outline.WellFormed

/-! # Walks

In a well-formed outline the walk from an item lists the item and what stands below it, parents
before their children and children in order.

* `Outline.family h`: the items at and below `h`, in the order of the walk.
* `WellFormed.family_eq`: an item, followed by the families of its children.
* `Outline.Leads x y`: going from items to their children leads from `x` to `y`.  A family is all that
  its item leads to (`WellFormed.mem_family_iff_leads`).
* `WellFormed.walk_eq`: the walk ends and is the sequence made by recursion on the tree. -/

namespace PackageOutline

namespace Outline

variable {o o' : Outline} {h x y c : Handle} {i j : Item}

/-- The items at and below an item, parents before their children. -/
def family (o : Outline) (h : Handle) : List Handle := (o.preorder o.slots.size 0 h).map Prod.fst

/-- Induction from children to parents. -/
theorem WellFormed.child_induction (w : o.WellFormed) {P : Handle → Prop}
    (step : ∀ h i, o.get? h = some i → (∀ c ∈ i.children, P c) → P h) :
    ∀ h i, o.get? h = some i → P h := by
  have main : ∀ n h, o.Fits n h → P h := by
    intro n
    induction n with
    | zero =>
        intro h hf
        exact hf.elim
    | succ n ih =>
        rintro h ⟨i, hi, hc⟩
        exact step h i hi fun c hmem => ih c (hc c hmem)
  exact fun h i hi => main _ h (w.fits hi)

/-! ### The sequence by recursion -/

theorem preorder_stable {n m : Nat} (hf : o.Fits (n + 1) h) (hnm : n ≤ m) (depth : Nat) :
    o.preorder m depth h = o.preorder n depth h := by
  induction n generalizing m h depth with
  | zero =>
      obtain ⟨i, hi, hc⟩ := hf
      have hnil : i.children = [] := List.eq_nil_iff_forall_not_mem.mpr fun c hmem => hc c hmem
      cases m with
      | zero => rfl
      | succ m => simp [preorder, hi, hnil]
  | succ n ih =>
      obtain ⟨m, rfl⟩ : ∃ m', m = m' + 1 := ⟨m - 1, by omega⟩
      obtain ⟨i, hi, hc⟩ := hf
      simp only [preorder, hi, Option.elim_some]
      congr 1
      exact List.flatMap_congr fun c hmem => ih (hc c hmem) (by omega) (depth + 1)

theorem map_fst_preorder (o : Outline) (n depth depth' : Nat) (h : Handle) :
    (o.preorder n depth h).map Prod.fst = (o.preorder n depth' h).map Prod.fst := by
  induction n generalizing h depth depth' with
  | zero => rfl
  | succ n ih =>
      simp only [preorder, List.map_cons, List.map_flatMap]
      congr 1
      exact List.flatMap_congr fun c _ => ih (depth + 1) (depth' + 1) c

theorem WellFormed.preorder_eq (w : o.WellFormed) (hi : o.get? h = some i)
    (depth : Nat) : o.preorder o.slots.size depth h =
      (h, depth) :: i.children.flatMap (o.preorder o.slots.size (depth + 1)) := by
  have hlt := index_lt_of_get? hi
  obtain ⟨n, hn⟩ : ∃ n, o.slots.size = n + 1 := ⟨o.slots.size - 1, by omega⟩
  have hf := w.fits hi
  rw [hn] at hf ⊢
  obtain ⟨j, hj, hc⟩ := hf
  rw [hi] at hj
  obtain rfl := Option.some.inj hj
  rw [preorder, hi, Option.elim_some]
  congr 1
  refine List.flatMap_congr fun c hmem => ?_
  exact (preorder_stable ((hc c hmem).mono (Nat.le_succ n)) (Nat.le_succ n) (depth + 1)).symm

/-! ### Families -/

/-- A family is the item, followed by the families of its children. -/
theorem WellFormed.family_eq (w : o.WellFormed) (hi : o.get? h = some i) :
    o.family h = h :: i.children.flatMap o.family := by
  unfold family
  rw [w.preorder_eq hi, List.map_cons, List.map_flatMap]
  congr 1
  exact List.flatMap_congr fun c _ => map_fst_preorder o _ _ _ c

theorem WellFormed.self_mem_family (w : o.WellFormed) (hi : o.get? h = some i) :
    h ∈ o.family h := by
  rw [w.family_eq hi]
  exact List.mem_cons_self

theorem WellFormed.below_of_mem_family (w : o.WellFormed) (hi : o.get? h = some i)
    (hx : x ∈ o.family h) : o.Below h x := by
  refine w.child_induction (P := fun h => x ∈ o.family h → o.Below h x) ?_ h i hi hx
  intro h i hi ih hx
  rw [w.family_eq hi, List.mem_cons, List.mem_flatMap] at hx
  rcases hx with rfl | ⟨c, hc, hx⟩
  · exact .self
  · exact (w.below_child hi hc).trans (ih c hc hx)

theorem Below.live (hb : o.Below h x) (hi : o.get? h = some i) : ∃ k, o.get? x = some k := by
  cases hb with
  | self => exact ⟨i, hi⟩
  | step hk _ _ => exact ⟨_, hk⟩

theorem WellFormed.live_of_mem_family (w : o.WellFormed) (hi : o.get? h = some i)
    (hx : x ∈ o.family h) : ∃ k, o.get? x = some k :=
  (w.below_of_mem_family hi hx).live hi

theorem Below.cases_child (w : o.WellFormed) (a : o.Attached) (hi : o.get? h = some i)
    (hb : o.Below h x) : x = h ∨ ∃ c ∈ i.children, o.Below c x := by
  induction hb with
  | self => exact Or.inl rfl
  | @step y p k hk hp _ ih =>
      obtain ⟨j, hj, hmem⟩ := w.parent_of a hk hp
      rcases ih with rfl | ⟨c, hc, hcp⟩
      · rw [hi] at hj
        obtain rfl := Option.some.inj hj
        exact Or.inr ⟨y, hmem, .self⟩
      · exact Or.inr ⟨c, hc, .step hk hp hcp⟩

/-- When all items are attached, a family is all that stands at and below its item. -/
theorem WellFormed.mem_family_iff (w : o.WellFormed) (a : o.Attached) (hi : o.get? h = some i) :
    x ∈ o.family h ↔ o.Below h x := by
  refine ⟨w.below_of_mem_family hi, ?_⟩
  refine w.child_induction (P := fun h => o.Below h x → x ∈ o.family h) ?_ h i hi
  intro h i hi ih hb
  rw [w.family_eq hi, List.mem_cons, List.mem_flatMap]
  rcases hb.cases_child w a hi with rfl | ⟨c, hc, hx⟩
  · exact Or.inl rfl
  · exact Or.inr ⟨c, hc, ih c hc hx⟩

theorem WellFormed.nodup_family (w : o.WellFormed) (hi : o.get? h = some i) :
    (o.family h).Nodup := by
  refine w.child_induction (P := fun h => (o.family h).Nodup) ?_ h i hi
  intro h i hi ih
  have below : ∀ {c y}, c ∈ i.children → y ∈ o.family c → o.Below c y := by
    intro c y hc hy
    obtain ⟨k, hk, -⟩ := w.child hi hc
    exact w.below_of_mem_family hk hy
  rw [w.family_eq hi, List.nodup_cons, List.nodup_flatMap]
  refine ⟨?_, ih, ?_⟩
  · rw [List.mem_flatMap]
    rintro ⟨c, hc, hx⟩
    exact w.not_below_parent hi hc (below hc hx)
  · refine (w.nodup hi).imp_of_mem fun {c d} hc hd hne => ?_
    intro y hyc hyd
    exact hne (w.children_disjoint hi hc hd (below hc hyc) (below hd hyd))

theorem WellFormed.length_family_le (w : o.WellFormed) (hi : o.get? h = some i) :
    (o.family h).length ≤ o.itemCount :=
  w.free.length_le_itemCount (w.nodup_family hi) fun _ hx => w.live_of_mem_family hi hx

/-! ### What an item leads to -/

/-- `Leads x y`: going from items to their children leads from `x` to `y`. -/
inductive Leads (o : Outline) (x : Handle) : Handle → Prop
  | self : Leads o x x
  | child {p c : Handle} {j : Item} :
      Leads o x p → o.get? p = some j → c ∈ j.children → Leads o x c

theorem leads_root_iff : o.Leads root h ↔ o.Reachable h := by
  constructor
  · intro hl
    induction hl with
    | self => exact .root
    | child _ hj hc ih => exact .child ih hj hc
  · intro hr
    induction hr with
    | root => exact .self
    | child _ hj hc ih => exact .child ih hj hc

theorem Leads.reachable (hl : o.Leads x y) (hr : o.Reachable x) : o.Reachable y := by
  induction hl with
  | self => exact hr
  | child _ hj hc ih => exact .child ih hj hc

theorem Leads.head (hi : o.get? x = some i) (hc : c ∈ i.children) (hl : o.Leads c y) :
    o.Leads x y := by
  induction hl with
  | self => exact .child .self hi hc
  | child _ hj hd ih => exact .child ih hj hd

theorem WellFormed.child_mem_family (w : o.WellFormed) (hi : o.get? x = some i)
    (hy : y ∈ o.family x) (hj : o.get? y = some j) (hc : c ∈ j.children) : c ∈ o.family x := by
  refine w.child_induction (P := fun x => y ∈ o.family x → c ∈ o.family x) ?_ x i hi hy
  intro x i hi ih hy
  rw [w.family_eq hi, List.mem_cons, List.mem_flatMap] at hy ⊢
  rcases hy with rfl | ⟨d, hd, hy⟩
  · obtain ⟨k, hk, -⟩ := w.child hj hc
    rw [hi] at hj
    obtain rfl := Option.some.inj hj
    exact Or.inr ⟨c, hc, w.self_mem_family hk⟩
  · exact Or.inr ⟨d, hd, ih d hd hy⟩

/-- A family is all that its item leads to. -/
theorem WellFormed.mem_family_iff_leads (w : o.WellFormed) (hi : o.get? x = some i) :
    y ∈ o.family x ↔ o.Leads x y := by
  constructor
  · refine w.child_induction (P := fun x => y ∈ o.family x → o.Leads x y) ?_ x i hi
    intro x i hi ih hy
    rw [w.family_eq hi, List.mem_cons, List.mem_flatMap] at hy
    rcases hy with rfl | ⟨c, hc, hy⟩
    · exact .self
    · exact .head hi hc (ih c hc hy)
  · intro hl
    induction hl with
    | self => exact w.self_mem_family hi
    | child _ hj hc ih => exact w.child_mem_family hi ih hj hc

/-! ### The walk -/

theorem WellFormed.walkPending_eq (w : o.WellFormed) {steps : Nat}
    {pending : List (Handle × Nat)} (live : ∀ q ∈ pending, ∃ i, o.get? q.1 = some i)
    (hs : (pending.flatMap fun q => o.family q.1).length ≤ steps) :
    o.walkPending steps pending =
      .ok (pending.flatMap fun q => o.preorder o.slots.size q.2 q.1) := by
  induction steps generalizing pending with
  | zero =>
      cases pending with
      | nil => rfl
      | cons q pending =>
          obtain ⟨i, hi⟩ := live q List.mem_cons_self
          rw [List.flatMap_cons, w.family_eq hi] at hs
          simp at hs
  | succ steps ih =>
      cases pending with
      | nil => rfl
      | cons q pending =>
          obtain ⟨h, depth⟩ := q
          obtain ⟨i, hi⟩ := live (h, depth) List.mem_cons_self
          simp only at hi
          have hnext : o.walkPending steps (i.children.map (·, depth + 1) ++ pending) =
              .ok ((i.children.map (·, depth + 1) ++ pending).flatMap
                fun q => o.preorder o.slots.size q.2 q.1) := by
            apply ih
            · intro q hq
              rcases List.mem_append.mp hq with hq | hq
              · obtain ⟨c, hc, rfl⟩ := List.mem_map.mp hq
                obtain ⟨k, hk, -⟩ := w.child hi hc
                exact ⟨k, hk⟩
              · exact live q (List.mem_cons_of_mem _ hq)
            · rw [List.flatMap_cons, w.family_eq hi] at hs
              have hc : (i.children.map (·, depth + 1)).flatMap (fun q => o.family q.1) =
                  i.children.flatMap o.family := List.flatMap_map _ _ _
              rw [List.flatMap_append, hc]
              simp only [List.length_append, List.length_cons] at hs ⊢
              omega
          unfold walkPending
          simp only [item_of_get? hi, hnext, bind, Except.bind, pure, Except.pure]
          rw [List.flatMap_cons, w.preorder_eq hi, List.flatMap_append, List.flatMap_map,
            List.cons_append]

/-- The walk is the sequence by recursion. -/
theorem WellFormed.walk_eq (w : o.WellFormed) (hi : o.get? h = some i) :
    o.walk h = .ok (o.preorder o.slots.size 0 h) := by
  have hle := w.length_family_le hi
  have hsize := itemCount_le_size o
  unfold walk
  rw [w.walkPending_eq]
  · simp
  · intro q hq
    rw [List.mem_singleton.mp hq]
    exact ⟨i, hi⟩
  · simp only [List.flatMap_cons, List.flatMap_nil, List.append_nil]
    omega

theorem AgreeOn.family (ag : AgreeOn Item.links o o') (h : Handle) :
    o'.family h = o.family h := by
  have main : ∀ n depth h, o'.preorder n depth h = o.preorder n depth h := by
    intro n
    induction n with
    | zero => exact fun _ _ => rfl
    | succ n ih =>
        intro depth h
        have hc : (o'.get? h).elim [] Item.children = (o.get? h).elim [] Item.children := by
          have hm := (ag.comp (g := Item.children) Prod.snd fun _ => rfl).get h
          cases hi : o.get? h <;> cases hj : o'.get? h <;> simp_all
        simp only [preorder, hc]
        congr 1
        exact List.flatMap_congr fun c _ => ih (depth + 1) c
  unfold Outline.family
  rw [ag.size, main]

end Outline

end PackageOutline
