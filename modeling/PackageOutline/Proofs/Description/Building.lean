import PackageOutline.Proofs.Description.Proper
import PackageOutline.Proofs.Outline.Fresh
import PackageOutline.Proofs.Outline.Walk

/-! # Outlines of descriptions that are read

Building puts every declared item into a new slot, in the order of the declarations: an item, then
what is declared in it, then its later siblings.  `Declaration.made` lists the items that a
declaration comes to, with the handles that they have by then, and `Outline.Built` says that an
outline has got them.

`addAllDeclared_outcome` goes through the declarations and finds every edit accepted, as the
declarations are proper; only the slots may run out.  `build_outcome` says it of a whole description,
`walk_of_ofYaml` what a walk through the outline shows, and `build_of_overfull_description` that the
slots can run out. -/

namespace PackageOutline

namespace Declaration

/-- The handles of some declared items, when the first is put into slot `base`. -/
def tops (base : Nat) : List Declaration → List Handle
  | [] => []
  | d :: ds => ⟨base, 0⟩ :: tops (base + d.count) ds

mutual

/-- The items that a declaration comes to, from slot `base` on. -/
def made (base : Nat) (parent : Handle) : Declaration → List Item
  | ⟨kind, name, items⟩ =>
    { kind, name, parent := some parent, children := tops (base + 1) items } ::
      madeAll (base + 1) ⟨base, 0⟩ items

/-- The items that some declarations come to, from slot `base` on. -/
def madeAll (base : Nat) (parent : Handle) : List Declaration → List Item
  | [] => []
  | d :: ds => d.made base parent ++ madeAll (base + d.count) parent ds

end

mutual

theorem length_made : (d : Declaration) → ∀ (base : Nat) (parent : Handle),
    (d.made base parent).length = d.count
  | ⟨kind, name, items⟩, base, parent => by
    rw [made, count, List.length_cons, length_madeAll items, Nat.add_comm]

theorem length_madeAll : (ds : List Declaration) → ∀ (base : Nat) (parent : Handle),
    (madeAll base parent ds).length = countAll ds
  | [], _, _ => rfl
  | d :: ds, base, parent => by
    rw [madeAll, countAll, List.length_append, length_made d, length_madeAll ds]

end

end Declaration

namespace Outline

open Declaration

variable {o o₁ o₂ o' : Outline} {h p : Handle} {i j : Item} {hs hs' : List Handle}
  {is is' : List Item} {kind : Kind} {name : String}

/-! ### Items put into new slots -/

/-- The outline has some new items in slots behind the others, and some handles behind the other
children of `p`. -/
structure Built (o : Outline) (p : Handle) (hs : List Handle) (is : List Item) (o' : Outline) :
    Prop where
  size : o'.slots.size = o.slots.size + is.length
  free : o'.free = []
  made : ∀ {k i}, is[k]? = some i → o'.get? ⟨o.slots.size + k, 0⟩ = some i
  parent : ∀ {j}, o.get? p = some j → o'.get? p = some { j with children := j.children ++ hs }
  old : ∀ {x}, x ≠ p → x.index < o.slots.size → o'.get? x = o.get? x

theorem Built.none (hfree : o.free = []) (p : Handle) : Built o p [] [] o where
  size := rfl
  free := hfree
  made hk := by cases hk
  parent hj := by rw [List.append_nil, hj]
  old _ _ := rfl

theorem Built.append (b : Built o p hs is o₁) (b' : Built o₁ p hs' is' o₂)
    (hj : o.get? p = some j) : Built o p (hs ++ hs') (is ++ is') o₂ := by
  have hlt := index_lt_of_get? hj
  refine ⟨?_, b'.free, fun {k i} hk => ?_, fun hj => ?_, fun hx hlt => ?_⟩
  · rw [b'.size, b.size, List.length_append, Nat.add_assoc]
  · rw [List.getElem?_append] at hk
    split at hk
    · rw [b'.old (by rintro rfl; exact absurd hlt (Nat.not_lt.mpr (Nat.le_add_right _ _)))
        (by rw [b.size]; exact Nat.add_lt_add_left ‹_› _)]
      exact b.made hk
    · rename_i hle
      have hnew := b'.made hk
      rw [b.size, Nat.add_assoc, Nat.add_sub_cancel' (Nat.not_lt.mp hle)] at hnew
      exact hnew
  · rw [b'.parent (b.parent hj), List.append_assoc]
  · rw [b'.old hx (by rw [b.size]; exact Nat.lt_add_right _ hlt), b.old hx hlt]

theorem Built.nest (hh : h = ⟨o.slots.size, 0⟩) (hj : o.get? p = some j) (hi : i.children = [])
    (b : Built o p [h] [i] o₁) (b' : Built o₁ h hs is o₂) :
    Built o p [h] ({ i with children := hs } :: is) o₂ := by
  subst hh
  have hlt := index_lt_of_get? hj
  have hsize : o₁.slots.size = o.slots.size + 1 := b.size
  refine ⟨?_, b'.free, fun {k m} hk => ?_, fun hj => ?_, fun hx hlt => ?_⟩
  · rw [b'.size, hsize, List.length_cons]
    omega
  · cases k with
    | zero =>
        obtain rfl := Option.some.inj hk
        have hself := b'.parent (b.made (k := 0) rfl)
        rw [hi] at hself
        exact hself
    | succ k =>
        have hnew := b'.made (show is[k]? = some m from hk)
        rw [hsize] at hnew
        rw [← hnew]
        congr 2
        omega
  · refine (b'.old ?_ ?_).trans (b.parent hj)
    · rintro rfl
      exact Nat.lt_irrefl _ hlt
    · omega
  · rw [b'.old ?_ (by omega), b.old hx hlt]
    rintro rfl
    exact Nat.lt_irrefl _ hlt

/-! ### Edits that are accepted -/

theorem checkPlacement_of (hvalid : Identifier.isValid name = true)
    (hgroup : kind = .group → p = Outline.root ∧ Identifier.isGroup name = true)
    (hj : o.get? p = some j) (hadmits : j.kind.admits kind = true) :
    o.checkPlacement p kind name = .ok () := by
  unfold checkPlacement
  simp only [hvalid, item_of_get? hj, ↓reduceIte]
  by_cases hg : kind = .group
  · obtain ⟨rfl, hname⟩ := hgroup hg
    subst hg
    simp [hname, hadmits, bind, Except.bind, pure, Except.pure]
  · simp [hg, hadmits, bind, Except.bind, pure, Except.pure]

theorem checkSiblings_of (hj : o.get? p = some j)
    (hnames : ∀ c ∈ j.children, ∀ k, o.get? c = some k → k.name ≠ name) (self : Option Handle) :
    o.checkSiblings p name self = .ok () := by
  have hany : (j.children.any fun child => some child ≠ self && o.isNamed name child) = false := by
    refine List.any_eq_false.mpr fun c hc hnamed => ?_
    obtain ⟨-, hnamed⟩ := (Bool.and_eq_true ..).mp hnamed
    obtain ⟨k, hk, hkn⟩ := (Option.any_eq_true ..).mp hnamed
    exact hnames c hc k hk (by simpa using hkn)
  unfold checkSiblings
  rw [item_of_get? hj]
  show (if _ then _ else _) = _
  rw [if_neg (by rw [hany]; exact Bool.false_ne_true)]
  rfl

theorem attach_of {index : Nat} (hi : o.get? h = some i) (hp : i.parent = some p)
    (hj : o.get? p = some j) (hmem : h ∉ j.children) (hindex : index ≤ j.children.length)
    (hnames : ∀ c ∈ j.children, ∀ k, o.get? c = some k → k.name ≠ i.name) :
    o.attach p index h = .ok (o.set p { j with children := j.children.insertIdx index h }) := by
  unfold attach
  simp [item_of_get? hi, item_of_get? hj, hp, hmem, hindex, checkSiblings_of hj hnames, bind,
    Except.bind, pure, Except.pure]

theorem allocate_of_free_nil (hfree : o.free = []) (i : Item) :
    o.allocate i = if o.slots.size ≤ capacity then
      .ok (⟨o.slots.size, 0⟩, { o with slots := o.slots.push ⟨0, some i⟩ }) else .error .full := by
  unfold allocate
  rw [hfree]

end Outline

namespace Description

open Outline Declaration

variable {α β : Type} {o o₁ o' : Outline} {h p : Handle} {i j : Item} {is : List Item}
  {index n m : Nat} {document : Option SharedTree} {kind : Kind} {name : String}
  {Q : α → Outline → Prop}

/-! ### Outcomes -/

/-- A part of building that puts `n` items into slots: when the slots suffice it ends well, with a
property, and otherwise they run out. -/
def Outcome (o : Outline) (n : Nat) (r : Except Violation (α × Outline)) (Q : α → Outline → Prop) :
    Prop :=
  (o.slots.size + n ≤ capacity + 1 ∧ ∃ a o', r = .ok (a, o') ∧ Q a o') ∨
    (capacity + 1 < o.slots.size + n ∧ r = .error .full)

theorem result_bind_apply (x : Build α) (f : α → Build β) (o : Outline) :
    ((x >>= f) o).result = (x o).result.bind fun r => (f r.1 r.2).result :=
  Traced.result_bind (x o) fun r => f r.1 r.2

theorem Outcome.bind {x : Build α} {f : α → Build β} {Q' : β → Outline → Prop}
    (hx : Outcome o n (x o).result Q) (hsize : ∀ a o₁, Q a o₁ → o₁.slots.size = o.slots.size + n)
    (hf : ∀ a o₁, Q a o₁ → o₁.slots.size ≤ capacity + 1 → Outcome o₁ m (f a o₁).result Q') :
    Outcome o (n + m) ((x >>= f) o).result Q' := by
  rw [result_bind_apply]
  rcases hx with ⟨hle, a, o₁, hr, hq⟩ | ⟨hlt, hr⟩
  · rw [hr]
    have hrest := hf a o₁ hq (by rw [hsize a o₁ hq]; exact hle)
    rw [Outcome, hsize a o₁ hq, Nat.add_assoc] at hrest
    exact hrest
  · rw [hr]
    exact Or.inr ⟨by omega, rfl⟩

theorem create_of (hvalid : Identifier.isValid name = true)
    (hgroup : kind = .group → p = Outline.root ∧ Identifier.isGroup name = true)
    (hj : o.get? p = some j) (hadmits : j.kind.admits kind = true) :
    o.create p kind name = o.allocate { kind, name, parent := some p } := by
  unfold Outline.create
  rw [checkPlacement_of hvalid hgroup hj hadmits]
  rfl

theorem addItem_of {o₂ : Outline} (hc : o.create p kind name = .ok (h, o₁))
    (ha : o₁.attach p index h = .ok o₂) : (addItem p index kind name o).result = .ok (h, o₂) := by
  unfold addItem
  refine build_bind_eq_ok.mpr ⟨(), o, rfl, ?_⟩
  refine build_bind_eq_ok.mpr ⟨h, o₁, edit_eq_ok.mpr (Edit.exec_changeWith_eq_ok.mpr hc), ?_⟩
  exact build_bind_eq_ok.mpr ⟨(), o₂, edit_eq_ok.mpr (Edit.exec_change_eq_ok.mpr ha), rfl⟩

theorem addItem_of_error {v : Violation} (hc : o.create p kind name = .error v) :
    (addItem p index kind name o).result = .error v := by
  have hrun : exec (Edit.create p kind name) o = (.error v, o) := by
    unfold Edit.create Edit.changeWith
    simp only [exec_mk, hc]
  have hedit : (edit (Edit.create p kind name) o).result = .error v := by
    show (exec (Edit.create p kind name) o).1.map _ = _
    rw [hrun]
    rfl
  unfold addItem
  show (Traced.result (edit (Edit.create p kind name) o >>= _)) = _
  rw [Traced.result_bind, hedit]
  rfl

theorem addItem_outcome (f : o.Fresh document) (hfree : o.free = []) (hj : o.get? p = some j)
    (hvalid : Identifier.isValid name = true)
    (hgroup : kind = .group → p = Outline.root ∧ Identifier.isGroup name = true)
    (hadmits : j.kind.admits kind = true)
    (hnames : ∀ c ∈ j.children, ∀ k, o.get? c = some k → k.name ≠ name) :
    Outcome o 1 (addItem p j.children.length kind name o).result fun h o' =>
      h = ⟨o.slots.size, 0⟩ ∧ o'.Fresh document ∧
        Built o p [h] [{ kind, name, parent := some p }] o' := by
  have hcreate := create_of hvalid hgroup hj hadmits
  rw [allocate_of_free_nil hfree] at hcreate
  by_cases hsize : o.slots.size ≤ capacity
  · rw [if_pos hsize] at hcreate
    obtain ⟨g, -⟩ := f.tree.free.allocate (create_eq_ok hcreate).2
    have hchild : ∀ c ∈ j.children, c ≠ ⟨o.slots.size, 0⟩ := by
      intro c hc
      obtain ⟨k, hk, -⟩ := f.tree.child hj hc
      exact g.ne hk
    have hj₁ := g.elsewhere hj
    have hattach := attach_of g.self rfl hj₁ (fun hmem => hchild _ hmem rfl) (Nat.le_refl _)
      fun c hc k hk => hnames c hc k (by rwa [g.get, if_neg (hchild c hc)] at hk)
    refine Or.inl ⟨by omega, _, _, addItem_of hcreate hattach, rfl, f.place hcreate hattach, ?_⟩
    rw [List.insertIdx_length_self]
    refine ⟨?_, hfree, fun {k i} hk => ?_, fun {j'} hj' => ?_, fun {x} hx hlt => ?_⟩
    · rw [size_set, Array.size_push]
      rfl
    · cases k with
      | zero =>
          obtain rfl := Option.some.inj hk
          exact (get?_set_of_ne hj₁ _ (g.ne hj).symm).trans g.self
      | succ k => cases hk
    · rw [hj] at hj'
      obtain rfl := Option.some.inj hj'
      exact get?_set_self hj₁ _
    · rw [get?_set_of_ne hj₁ _ hx, g.get, if_neg]
      rintro rfl
      exact Nat.lt_irrefl _ hlt
  · rw [if_neg hsize] at hcreate
    exact Or.inr ⟨by omega, addItem_of_error hcreate⟩

theorem names_of_built {q : Item} (w : o.WellFormed) (hj : o.get? p = some j)
    (hnew : h = ⟨o.slots.size, 0⟩) (b : Built o p [h] (q :: is) o') {P : String → Prop}
    (hold : ∀ c ∈ j.children, ∀ k, o.get? c = some k → P k.name) (hq : P q.name) :
    ∀ c ∈ j.children ++ [h], ∀ k, o'.get? c = some k → P k.name := by
  intro c hc k hk
  rcases List.mem_append.mp hc with hc | hc
  · obtain ⟨k₀, hk₀, -⟩ := w.child hj hc
    by_cases hcp : c = p
    · rw [hcp, b.parent hj] at hk
      rw [← Option.some.inj hk]
      exact hold c hc j (hcp ▸ hj)
    · rw [b.old hcp (index_lt_of_get? hk₀)] at hk
      exact hold c hc k hk
  · have hself : o'.get? ⟨o.slots.size, 0⟩ = some q := b.made (k := 0) rfl
    rw [List.mem_singleton.mp hc, hnew, hself] at hk
    rw [← Option.some.inj hk]
    exact hq

theorem eq_root_of_group (f : o.Fresh document) (hj : o.get? p = some j)
    (hadmits : j.kind.admits .group = true) : p = Outline.root := by
  have hpackage : j.kind = .package := by
    cases hk : j.kind <;> rw [hk] at hadmits <;> first | rfl | cases hadmits
  by_contra hp
  obtain ⟨q, m, hq, hm, -⟩ := f.attached hj hp
  have := f.tree.placed hj hq hm
  rw [hpackage, Kind.admits_package] at this
  cases this

mutual

/-- Adding a declared item, with those below it, behind the other children of a parent that admits
it. -/
theorem addDeclared_outcome : (d : Declaration) → ∀ {o : Outline} {p : Handle} {j : Item},
    o.Fresh document → o.free = [] → o.get? p = some j → j.kind.admits d.kind = true → d.Proper →
    (∀ c ∈ j.children, ∀ k, o.get? c = some k → k.name ≠ d.name) →
    Outcome o d.count (addDeclared p j.children.length d o).result fun _ o' =>
      o'.Fresh document ∧ Built o p [⟨o.slots.size, 0⟩] (d.made o.slots.size p) o'
  | ⟨kind, name, items⟩, o, p, j, f, hfree, hj, hadmits, hproper, hnames => by
    obtain ⟨hvalid, hgroup, hitems⟩ := hproper
    rw [addDeclared, Declaration.count]
    refine Outcome.bind (addItem_outcome f hfree hj hvalid (fun hg => ?_) hadmits hnames)
      (fun h o₁ hq => hq.2.2.size) fun h o₁ ⟨hh, f₁, b⟩ hcap => ?_
    · exact ⟨eq_root_of_group f hj (hg ▸ hadmits), hgroup hg⟩
    · subst hh
      have hself : o₁.get? ⟨o.slots.size, 0⟩ = some { kind, name, parent := some p } :=
        b.made (k := 0) rfl
      refine (addAllDeclared_outcome items f₁ b.free hcap hself hitems
        fun d _ c hc => by cases hc).imp (fun ⟨hsize, u, o₂, hrun, f₂, b'⟩ => ?_) id
      rw [b.size] at b'
      exact ⟨hsize, u, o₂, hrun, f₂, Built.nest rfl hj rfl b b'⟩

theorem addAllDeclared_outcome : (ds : List Declaration) → ∀ {o : Outline} {p : Handle} {j : Item},
    o.Fresh document → o.free = [] → o.slots.size ≤ capacity + 1 → o.get? p = some j →
    ProperAll j.kind ds →
    (∀ d ∈ ds, ∀ c ∈ j.children, ∀ k, o.get? c = some k → k.name ≠ d.name) →
    Outcome o (countAll ds) (addAllDeclared p j.children.length ds o).result fun _ o' =>
      o'.Fresh document ∧
        Built o p (tops o.slots.size ds) (madeAll o.slots.size p ds) o'
  | [], o, p, j, f, hfree, hcap, hj, hproper, hnames =>
    Or.inl ⟨hcap, (), o, rfl, f, .none hfree p⟩
  | d :: ds, o, p, j, f, hfree, hcap, hj, hproper, hnames => by
    obtain ⟨hadmits, hdiffer, hd, hds⟩ := hproper
    rw [addAllDeclared, countAll]
    refine Outcome.bind (addDeclared_outcome d f hfree hj hadmits hd
      (hnames d List.mem_cons_self)) (fun _ o₁ hq => ?_) fun _ o₁ ⟨f₁, b⟩ hcap₁ => ?_
    · rw [hq.2.size, length_made]
    · have hlen : j.children.length + 1 =
          ({ j with children := j.children ++ [⟨o.slots.size, 0⟩] } : Item).children.length := by
        rw [List.length_append, List.length_singleton]
      rw [hlen]
      refine (addAllDeclared_outcome ds f₁ b.free hcap₁ (b.parent hj) hds fun e he => ?_).imp
        (fun ⟨hsize, u, o₂, hrun, f₂, b'⟩ => ?_) id
      · obtain ⟨kind, name, items⟩ := d
        exact names_of_built f.tree hj rfl b (P := fun n => n ≠ e.name)
          (hnames e (List.mem_cons_of_mem _ he)) (Ne.symm (hdiffer e he))
      · rw [b.size, length_made] at b'
        exact ⟨hsize, u, o₂, hrun, f₂, b.append b' hj⟩

end

end Description

namespace Outline

open Declaration

variable {o : Outline}

/-! ### Walks through new slots -/

/-- What a walk shows of an item: its kind, its name and its depth. -/
def shown (o : Outline) (q : Handle × Nat) : Option (Kind × String × Nat) :=
  (o.get? q.1).map fun i => (i.kind, i.name, q.2)

mutual

/-- The items that a declaration came to are walked through in the order of the declaration. -/
theorem shown_made : ∀ (d : Declaration) (base levels depth : Nat) {p : Handle},
    (∀ {k i}, (d.made base p)[k]? = some i → o.get? ⟨base + k, 0⟩ = some i) →
    o.Fits levels ⟨base, 0⟩ →
    (o.preorder levels depth ⟨base, 0⟩).map o.shown = (d.preorder depth).map some
  | ⟨kind, name, items⟩, base, levels, depth, p, hmade, hfits => by
    obtain _ | levels := levels
    · exact hfits.elim
    rw [made] at hmade
    have hself : o.get? ⟨base, 0⟩ =
        some { kind, name, parent := some p, children := tops (base + 1) items } :=
      hmade (k := 0) rfl
    obtain ⟨i, hi, hbelow⟩ := hfits
    rw [hself] at hi
    obtain rfl := Option.some.inj hi
    have hrest := shown_madeAll items (base + 1) levels (depth + 1) (p := ⟨base, 0⟩)
      (fun {k i} hk => ?_) hbelow
    · rw [Outline.preorder, hself, Declaration.preorder, List.map_cons, List.map_cons, ← hrest]
      simp [shown, hself]
    · rw [Nat.add_assoc, Nat.add_comm 1 k]
      exact hmade (k := k + 1) hk

theorem shown_madeAll : ∀ (ds : List Declaration) (base levels depth : Nat) {p : Handle},
    (∀ {k i}, (madeAll base p ds)[k]? = some i → o.get? ⟨base + k, 0⟩ = some i) →
    (∀ c ∈ tops base ds, o.Fits levels c) →
    ((tops base ds).flatMap (o.preorder levels depth)).map o.shown =
      (preorderAll depth ds).map some
  | [], _, _, _, _, _, _ => rfl
  | d :: ds, base, levels, depth, p, hmade, hfits => by
    rw [madeAll] at hmade
    have hfirst := shown_made d base levels depth (p := p) (fun {k i} hk =>
      hmade ((List.getElem?_append_left (List.getElem?_eq_some_iff.mp hk).1).trans hk))
      (hfits _ List.mem_cons_self)
    have hrest := shown_madeAll ds (base + d.count) levels depth (p := p) (fun {k i} hk => ?_)
      fun c hc => hfits c (List.mem_cons_of_mem _ hc)
    · rw [tops, List.flatMap_cons, List.map_append, hfirst, hrest, preorderAll, List.map_append]
    · rw [Nat.add_assoc]
      refine hmade ?_
      rw [List.getElem?_append_right (by rw [length_made]; exact Nat.le_add_right _ _), length_made,
        Nat.add_sub_cancel_left, hk]

end

end Outline

namespace Description

open Outline Declaration

/-! ### The whole outline -/

theorem countAll_items (gs : List GroupDeclaration) :
    countAll (gs.map GroupDeclaration.asItem) = GroupDeclaration.countAll gs := by
  induction gs with
  | nil => rfl
  | cons g gs ih =>
      rw [List.map_cons, countAll, ih, GroupDeclaration.asItem, Declaration.count,
        GroupDeclaration.countAll]

theorem count_eq (d : Description) : d.count = 1 + countAll d.items := by
  rw [Description.count, items, countAll_items]

theorem preorderAll_items (gs : List GroupDeclaration) :
    preorderAll 1 (gs.map GroupDeclaration.asItem) =
      gs.flatMap fun g => (.group, g.name, 1) :: preorderAll 2 g.items := by
  induction gs with
  | nil => rfl
  | cons g gs ih =>
      rw [List.map_cons, preorderAll, ih, List.flatMap_cons, GroupDeclaration.asItem,
        Declaration.preorder]

theorem addGroups_eq (gs : List GroupDeclaration) (index : Nat) (o : Outline) :
    (addGroups index gs o).result =
      (addAllDeclared Outline.root index (gs.map GroupDeclaration.asItem) o).result := by
  induction gs generalizing index o with
  | nil => rfl
  | cons g gs ih =>
      rw [addGroups, List.map_cons, addAllDeclared, GroupDeclaration.asItem, addDeclared,
        result_bind_apply, result_bind_apply, result_bind_apply]
      rcases (addItem Outline.root index .group g.name o).result with v | ⟨h, o₁⟩
      · rfl
      · show ((addAllDeclared h 0 g.items >>= fun _ => addGroups (index + 1) gs) o₁).result = _
        rw [result_bind_apply]
        simp only [ih]
        rfl

theorem build_result (d : Description) (document : Option SharedTree) :
    (d.build document).result =
      (addAllDeclared Outline.root 0 d.items (Outline.new d.package document)).result.map
        Prod.snd := by
  unfold build
  rw [Traced.result_bind, items, ← addGroups_eq]
  show ((addGroups 0 d.groups (Outline.new d.package document)).result.bind _) = _
  rcases (addGroups 0 d.groups (Outline.new d.package document)).result with v | ⟨u, o⟩ <;> rfl

/-- What comes of building the outline of a description that was read. -/
theorem build_outcome {value : Yaml} {d : Description} (hd : (ofYaml value).result = .ok d)
    (document : Option SharedTree) :
    (d.count ≤ capacity + 1 ∧ ∃ o, (d.build document).result = .ok o ∧ o.Fresh document ∧
      Built (Outline.new d.package document) Outline.root (tops 1 d.items)
        (madeAll 1 Outline.root d.items) o) ∨
    (capacity + 1 < d.count ∧ (d.build document).result = .error .full) := by
  have hout : Outcome _ _ (addAllDeclared Outline.root 0 d.items _).result _ :=
    addAllDeclared_outcome d.items (fresh_new d.package document) rfl (Nat.le_add_left 1 capacity)
      (get?_new_root d.package document) (proper_of_ofYaml hd) fun _ _ _ hc => by cases hc
  have hsize : (Outline.new d.package document).slots.size = 1 := rfl
  rw [Outcome, hsize, ← count_eq] at hout
  rw [build_result]
  rcases hout with ⟨hle, u, o, hrun, f, b⟩ | ⟨hlt, hrun⟩
  · exact .inl ⟨hle, o, by rw [hrun]; rfl, f, b⟩
  · exact .inr ⟨hlt, by rw [hrun]; rfl⟩

section
variable {d : Description} {document : Option SharedTree} {o : Outline}

theorem size_of_built (b : Built (Outline.new d.package document) Outline.root (tops 1 d.items)
    (madeAll 1 Outline.root d.items) o) : o.slots.size = d.count := by
  rw [b.size, length_madeAll, count_eq]
  rfl

theorem shown_of_built (f : o.Fresh document) (b : Built (Outline.new d.package document)
    Outline.root (tops 1 d.items) (madeAll 1 Outline.root d.items) o) :
    (o.preorder o.slots.size 0 Outline.root).map o.shown =
      ((.package, d.package, 0) :: d.groups.flatMap fun g =>
        (.group, g.name, 1) :: preorderAll 2 g.items).map some := by
  have hself := b.parent (get?_new_root d.package document)
  have hitems := shown_madeAll d.items _ o.slots.size 1 b.made fun c hc => by
    obtain ⟨k, hk, -⟩ := f.tree.child hself hc
    exact f.tree.fits hk
  rw [f.tree.preorder_eq hself, List.map_cons, List.map_cons, ← preorderAll_items, ← items,
    ← hitems]
  simp [shown, hself]

end

/-- Building the outline of a description that was read is refused only when there are more items than
slots.  Otherwise the outline has exactly the declared items, in the order in which they are
declared, none of them marked and none with contents of its own. -/
theorem walk_of_ofYaml {value : Yaml} {d : Description} (hd : (ofYaml value).result = .ok d)
    (document : Option SharedTree) :
    if d.count ≤ capacity + 1 then
      ∃ o l, (d.build document).result = .ok o ∧ o.walk Outline.root = .ok l ∧
        l.map o.shown = ((.package, d.package, 0) :: d.groups.flatMap fun g =>
          (.group, g.name, 1) :: preorderAll 2 g.items).map some ∧
        o.itemCount = d.count ∧ o.document = document ∧
        ∀ h i, o.get? h = some i → i.dirty = false ∧ i.contents = none
    else (d.build document).result = .error .full := by
  rcases build_outcome hd document with ⟨hle, o, ho, f, b⟩ | ⟨hlt, hfull⟩
  · rw [if_pos hle]
    have hself := b.parent (get?_new_root d.package document)
    refine ⟨o, _, ho, f.tree.walk_eq hself, shown_of_built f b, ?_, f.document, fun h i hi => ?_⟩
    · unfold itemCount
      rw [b.free, size_of_built b]
      rfl
    · exact ⟨(f.idle hi).1, (f.idle hi).2.2⟩
  · rw [if_neg (Nat.not_le.mpr hlt)]
    exact hfull

/-- A description with a folder, entries that are no items, and a group without items. -/
theorem walk_of_nested_description : ∃ (value : Yaml) (d : Description) (o : Outline)
    (l : List (Handle × Nat)), (ofYaml value).result = .ok d ∧ (d.build none).result = .ok o ∧
    o.walk Outline.root = .ok l ∧ l.map o.shown = [some (.package, "P", 0),
      some (.group, "Package", 1), some (.folder, "d", 2), some (.file, "a", 3),
      some (.file, "b", 2), some (.group, "Data", 1)] ∧ o.itemCount = 6 := by
  have hd : (ofYaml (.mapping [(.scalar (.text "package"), .scalar (.text "P")),
      (.scalar (.text "groups"), .mapping [(.scalar (.text "Package"), .sequence [
        .mapping [(.scalar (.text "items"), .sequence
          [.mapping [(.scalar (.text "file"), .scalar (.text "a"))]]),
          (.scalar (.text "folder"), .scalar (.text "d"))], .scalar .null,
        .mapping [(.scalar (.text "colour"), .scalar (.text "red"))],
        .mapping [(.scalar (.text "file"), .scalar (.text "b"))]]),
        (.scalar (.text "Data"), .scalar .null)])])).result =
      .ok ⟨"P", [⟨"Package", [⟨.folder, "d", [⟨.file, "a", []⟩]⟩, ⟨.file, "b", []⟩]⟩,
        ⟨"Data", []⟩]⟩ := rfl
  have hbuild := walk_of_ofYaml hd none
  rw [if_pos (by decide)] at hbuild
  obtain ⟨o, l, ho, hl, hshown, hcount, -⟩ := hbuild
  exact ⟨_, _, o, l, hd, ho, hl, hshown, hcount⟩

/-! ### More items than an outline holds -/

/-- The entry of a folder with the items in it. -/
def folderEntry (name : String) (items : Yaml) : Yaml :=
  .mapping [(.scalar (.text "folder"), .scalar (.text name)), (.scalar (.text "items"), items)]

/-- A list of two folders with the same list in each of them, and so on for some levels. -/
def doubled : Nat → Yaml
  | 0 => .sequence []
  | levels + 1 => .sequence [folderEntry "l" (doubled levels), folderEntry "r" (doubled levels)]

/-- The items that `doubled` declares. -/
def doubledItems : Nat → List Declaration
  | 0 => []
  | levels + 1 => [⟨.folder, "l", doubledItems levels⟩, ⟨.folder, "r", doubledItems levels⟩]

/-- A description with the list in one of its groups.  As a text it is short, since each level can be
an anchor and two aliases. -/
def doubledGroup (levels : Nat) : Yaml :=
  .mapping [(.scalar (.text "package"), .scalar (.text "P")),
    (.scalar (.text "groups"), .mapping [(.scalar (.text "Package"), doubled levels)])]

theorem countAll_doubledItems (levels : Nat) :
    countAll (doubledItems levels) + 2 = 2 ^ (levels + 1) := by
  induction levels with
  | zero => rfl
  | succ levels ih =>
      simp only [doubledItems, countAll, Declaration.count]
      rw [Nat.pow_succ, ← ih]
      omega

theorem entryOf_folderEntry (name : String) {items : Yaml} {ds : List Declaration}
    (hvalid : Identifier.isValid name = true)
    (hitems : (itemsOf items .folder name).result = .ok ds) :
    (entryOf (folderEntry name items)).result = .ok (some ⟨.folder, name, ds⟩) := by
  show (itemOf _ _).result = _
  unfold itemOf
  refine parse_bind_eq_ok.mpr ⟨(), ensure_eq_ok.mpr hvalid, ?_⟩
  exact parse_bind_eq_ok.mpr ⟨ds, hitems, rfl⟩

theorem itemsOf_doubled (levels : Nat) {kind : Kind} (h : kind.admits .folder = true)
    (parent : String) :
    (itemsOf (doubled levels) kind parent).result = .ok (doubledItems levels) := by
  induction levels generalizing kind parent with
  | zero => rfl
  | succ levels ih =>
      have hl := entryOf_folderEntry "l" (by decide) (ih rfl "l")
      have hr := entryOf_folderEntry "r" (by decide) (ih rfl "r")
      show (entriesOf _ kind parent []).result = _
      rw [entriesOf]
      refine parse_bind_eq_ok.mpr ⟨_, hl, parse_bind_eq_ok.mpr ⟨(), ensure_eq_ok.mpr h, ?_⟩⟩
      refine parse_bind_eq_ok.mpr ⟨(), rfl, parse_bind_eq_ok.mpr ⟨_, ?_, rfl⟩⟩
      rw [entriesOf]
      refine parse_bind_eq_ok.mpr ⟨_, hr, parse_bind_eq_ok.mpr ⟨(), ensure_eq_ok.mpr h, ?_⟩⟩
      exact parse_bind_eq_ok.mpr ⟨(), rfl, rfl⟩

theorem ofYaml_doubledGroup (levels : Nat) :
    (ofYaml (doubledGroup levels)).result = .ok ⟨"P", [⟨"Package", doubledItems levels⟩]⟩ := by
  have hlist : (groupListOf [(.scalar (.text "Package"), doubled levels)] []).result =
      .ok [⟨"Package", doubledItems levels⟩] := by
    refine parse_bind_eq_ok.mpr ⟨"Package", rfl, parse_bind_eq_ok.mpr ⟨(), rfl, ?_⟩⟩
    refine parse_bind_eq_ok.mpr ⟨(), rfl, parse_bind_eq_ok.mpr ⟨_, ?_, rfl⟩⟩
    exact itemsOf_doubled levels rfl "Package"
  have hgroups : (groupsOf (.mapping [(.scalar (.text "Package"), doubled levels)])).result =
      .ok [⟨"Package", doubledItems levels⟩] :=
    parse_bind_eq_ok.mpr ⟨_, rfl, hlist⟩
  refine parse_bind_eq_ok.mpr ⟨_, rfl, parse_bind_eq_ok.mpr
    ⟨⟨some "P", [⟨"Package", doubledItems levels⟩]⟩, ?_, rfl⟩⟩
  exact parse_bind_eq_ok.mpr ⟨_, hgroups, rfl⟩

/-- A description that is accepted and declares more items than an outline holds, so that no outline is
built of it. -/
theorem build_of_overfull_description : ∃ d : Description,
    (ofYaml (doubledGroup 32)).result = .ok d ∧ capacity + 1 < d.count ∧
      ∀ document, (d.build document).result = .error .full := by
  have hd := ofYaml_doubledGroup 32
  have hcount : capacity + 1 < Description.count ⟨"P", [⟨"Package", doubledItems 32⟩]⟩ := by
    have hitems := countAll_doubledItems 32
    show 4294967295 + 1 < 1 + (1 + countAll (doubledItems 32) + 0)
    omega
  refine ⟨_, hd, hcount, fun document => ?_⟩
  rcases build_outcome hd document with ⟨hle, -⟩ | ⟨-, hfull⟩
  · exact absurd hle (Nat.not_le.mpr hcount)
  · exact hfull

end Description

end PackageOutline
