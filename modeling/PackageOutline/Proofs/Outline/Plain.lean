import PackageOutline.Proofs.Exec
import PackageOutline.Proofs.Outline.Address
import PackageOutline.Proofs.Outline.Walk

/-! # Images without memory

`Outline.plainImage h` makes the image of an item from the tree, the contents and the document
alone: what items remember and whether they are dirty plays no part in it, and it has no identities.

* `Outline.data h`: what a file stands for, its own contents or the file of the document at its path.
* `WellFormed.plainImage_file`, `WellFormed.plainImage_dir`: the image of an item from the images of
  its children.
* `SameTree.plainImage`: it is the same in outlines that differ in memory and marks only.
* `plainImage_keeps`: an image stays what it is when the items below keep their names, children and
  data. -/

namespace PackageOutline

/-- An item without its memory and its mark. -/
def Item.bare (i : Item) : Item := { i with cache := none, dirty := false }

theorem Item.bare_eq_iff {i j : Item} : i.bare = j.bare ↔
    i.frame = j.frame ∧ i.contents = j.contents := by
  obtain ⟨k, n, p, cs, c, m, d⟩ := i
  obtain ⟨k', n', p', cs', c', m', d'⟩ := j
  simp [bare, frame, and_assoc]

theorem Workspace.mapAll_contribution {α β : Type} (f : α → β) (i : Item) (t : Tree α) :
    Tree.mapAll f (contribution i t) = contribution i (t.map f) := by
  unfold contribution
  split
  · cases t <;> simp [Tree.map, Tree.entries, Tree.mapAll]
  · simp [Tree.mapAll]

namespace Outline

variable {o o' o'' : Outline} {h c : Handle} {i j : Item}

/-- The outlines differ at most in what items remember and in their marks. -/
structure SameTree (o o' : Outline) : Prop where
  agree : AgreeOn Item.bare o o'
  document : o'.document = o.document

/-- What a file stands for: its own contents, or the file of the document at its path. -/
def data (o : Outline) (h : Handle) : Option Bytes :=
  match (o.get? h).bind Item.contents with
  | some c => some c
  | none => (o.document.bind (·.find? (o.diskPath h))).bind Tree.contents?

/-- What a child contributes to the directory that it lies in. -/
def contributed {α : Type} (o : Outline) (c : Handle) (t : Tree α) : List (String × Tree α) :=
  (o.get? c).elim [] (Workspace.contribution · t)

/-- The directory of some entries, unless a name repeats. -/
def gather (o : Outline) (h : Handle) (entries : List (String × FileTree)) :
    Except Failure FileTree :=
  match Workspace.firstRepeat [] (Entries.keys entries) with
  | some name => .error (.error (.conflict (.ofNames (o.diskPath h ++ [name]))))
  | none => .ok (.dir () entries)

/-- The image of a file. -/
def plainFile (o : Outline) (h : Handle) : Except Failure FileTree :=
  match o.data h with
  | some c => .ok (.file () c)
  | none => .error (.error (.missingData (.ofNames (o.diskPath h))))

/-- The image of an item at most `levels` levels deep, made from the tree, the contents and the
document alone. -/
def plainImageAt (o : Outline) : (levels : Nat) → Handle → Except Failure FileTree
  | 0, h => .error (.violation (.missing h))
  | levels + 1, h => do
    let i ← (o.item h).mapError .violation
    if i.kind = .file then o.plainFile h
    else
      let parts ← i.children.mapM fun c => (o.plainImageAt levels c).map (o.contributed c)
      o.gather h parts.flatten

/-- The image of an item, made from the tree, the contents and the document alone. -/
def plainImage (o : Outline) (h : Handle) : Except Failure FileTree :=
  o.plainImageAt o.slots.size h

/-! ### The image of an item from those of its children -/

theorem mapM_congr {α β ε : Type} {f g : α → Except ε β} {l : List α}
    (hfg : ∀ a ∈ l, f a = g a) : l.mapM f = l.mapM g := by
  induction l with
  | nil => rfl
  | cons a l ih =>
      rw [List.mapM_cons, List.mapM_cons, hfg a List.mem_cons_self,
        ih fun b hb => hfg b (List.mem_cons_of_mem _ hb)]

theorem plainImageAt_succ (hi : o.get? h = some i) (n : Nat) :
    o.plainImageAt (n + 1) h = if i.kind = .file then o.plainFile h else
      (i.children.mapM fun c => (o.plainImageAt n c).map (o.contributed c)).bind fun parts =>
        o.gather h parts.flatten := by
  rw [plainImageAt, item_of_get? hi]
  rfl

theorem plainImageAt_stable {n m : Nat} (hf : o.Fits n h) (hnm : n ≤ m) :
    o.plainImageAt m h = o.plainImageAt n h := by
  induction n generalizing m h with
  | zero => exact hf.elim
  | succ n ih =>
      obtain ⟨m, rfl⟩ : ∃ m', m = m' + 1 := ⟨m - 1, by omega⟩
      obtain ⟨i, hi, hc⟩ := hf
      have hm : (i.children.mapM fun c => (o.plainImageAt m c).map (o.contributed c)) =
          i.children.mapM fun c => (o.plainImageAt n c).map (o.contributed c) := by
        refine mapM_congr fun c hmem => ?_
        rw [ih (hc c hmem) (by omega)]
      rw [plainImageAt_succ hi, plainImageAt_succ hi, hm]

theorem WellFormed.plainImage_unfold (w : o.WellFormed)
    (hi : o.get? h = some i) : o.plainImage h = if i.kind = .file then o.plainFile h else
      (i.children.mapM fun c => (o.plainImage c).map (o.contributed c)).bind fun parts =>
        o.gather h parts.flatten := by
  have hf := w.fits hi
  have hlt := index_lt_of_get? hi
  obtain ⟨n, hn⟩ : ∃ n, o.slots.size = n + 1 := ⟨o.slots.size - 1, by omega⟩
  have hm : (i.children.mapM fun c => (o.plainImageAt n c).map (o.contributed c)) =
      i.children.mapM fun c => (o.plainImage c).map (o.contributed c) := by
    refine mapM_congr fun c hmem => ?_
    rw [hn] at hf
    obtain ⟨j, hj, hc⟩ := hf
    rw [hi] at hj
    obtain rfl := Option.some.inj hj
    unfold plainImage
    rw [plainImageAt_stable (hc c hmem) (by omega : n ≤ o.slots.size)]
  rw [← hm, plainImage, hn, plainImageAt_succ hi]

theorem WellFormed.plainImage_file (w : o.WellFormed) (hi : o.get? h = some i)
    (hk : i.kind = .file) : o.plainImage h = o.plainFile h := by
  rw [w.plainImage_unfold hi, if_pos hk]

theorem WellFormed.plainImage_dir (w : o.WellFormed) (hi : o.get? h = some i)
    (hk : i.kind ≠ .file) : o.plainImage h =
      (i.children.mapM fun c => (o.plainImage c).map (o.contributed c)).bind fun parts =>
        o.gather h parts.flatten := by
  rw [w.plainImage_unfold hi, if_neg hk]

/-! ### Outlines with the same tree -/

namespace SameTree

theorem refl (o : Outline) : SameTree o o := ⟨.refl _ o, rfl⟩

theorem trans (s : SameTree o o') (s' : SameTree o' o'') : SameTree o o'' :=
  ⟨s.agree.trans s'.agree, s'.document.trans s.document⟩

theorem frame (s : SameTree o o') : AgreeOn Item.frame o o' :=
  s.agree.comp Item.frame fun _ => rfl

theorem wellFormed (s : SameTree o o') (w : o.WellFormed) : o'.WellFormed := w.congr s.frame

theorem attached (s : SameTree o o') (a : o.Attached) : o'.Attached :=
  a.congr s.frame.links

theorem diskPath (s : SameTree o o') (w : o.WellFormed) (a : o.Attached)
    (hi : o.get? h = some i) : o'.diskPath h = o.diskPath h := by
  obtain ⟨l, hl⟩ := w.exists_line a hi
  exact w.diskPath_of_stem (s.wellFormed w) hl fun x _ => s.frame.stem.get x

theorem data (s : SameTree o o') (w : o.WellFormed) (a : o.Attached) (hi : o.get? h = some i) :
    o'.data h = o.data h := by
  obtain ⟨j, hj, hb⟩ := s.agree.get?_eq_some hi
  obtain ⟨-, hc⟩ := Item.bare_eq_iff.mp hb
  unfold Outline.data
  rw [hi, hj, s.document, s.diskPath w a hi, Option.bind_some, Option.bind_some, hc]

theorem contributed {α : Type} (s : SameTree o o') (c : Handle) (t : Tree α) :
    o'.contributed c t = o.contributed c t := by
  have hk : AgreeOn (fun i : Item => Workspace.contribution i t) o o' :=
    s.frame.comp (fun f => if f.1.isTransparent then t.entries else [(f.2.1, t)]) fun _ => rfl
  have hm := hk.get c
  unfold Outline.contributed
  cases hi : o.get? c <;> cases hj : o'.get? c <;> simp_all

/-- Memory and marks play no part in images. -/
theorem plainImage (s : SameTree o o') (w : o.WellFormed) (a : o.Attached)
    (hi : o.get? h = some i) : o'.plainImage h = o.plainImage h := by
  have w' := s.wellFormed w
  refine w.child_induction (P := fun h => o'.plainImage h = o.plainImage h) ?_ h i hi
  intro h i hi ih
  obtain ⟨j, hj, hb⟩ := s.agree.get?_eq_some hi
  obtain ⟨hf, -⟩ := Item.bare_eq_iff.mp hb
  obtain ⟨hk, -, -, hc⟩ := Item.frame_eq_iff.mp hf
  by_cases hfile : i.kind = .file
  · rw [w.plainImage_file hi hfile, w'.plainImage_file hj (hk.trans hfile)]
    unfold plainFile
    rw [s.data w a hi, s.diskPath w a hi]
  · rw [w.plainImage_dir hi hfile, w'.plainImage_dir hj (hk ▸ hfile), hc]
    unfold gather
    rw [s.diskPath w a hi]
    congr 1
    refine mapM_congr fun c hmem => ?_
    rw [ih c hmem, funext (s.contributed c)]

end SameTree

/-! ### Images that stay what they are -/

/-- An item keeps what images are made of: kind, name and children, and data once there are any. -/
def Keeps (o o' : Outline) (h : Handle) : Prop :=
  ∃ i i', o.get? h = some i ∧ o'.get? h = some i' ∧ i'.kind = i.kind ∧ i'.name = i.name ∧
    i'.children = i.children ∧ (i.kind = .file → ∀ c, o.data h = some c → o'.data h = some c)

theorem mapM_ok_of_ok {α β ε : Type} {f g : α → Except ε β} {l : List α} {r : List β}
    (hfg : ∀ a ∈ l, ∀ b, f a = .ok b → g a = .ok b) (hr : l.mapM f = .ok r) :
    l.mapM g = .ok r := by
  induction l generalizing r with
  | nil => exact hr
  | cons a l ih =>
      obtain ⟨b, bs, hb, hbs, rfl⟩ := mapM_cons_eq_ok.mp hr
      exact mapM_cons_eq_ok.mpr ⟨b, bs, hfg a List.mem_cons_self b hb,
        ih (fun c hc => hfg c (List.mem_cons_of_mem _ hc)) hbs, rfl⟩

theorem gather_eq_ok_iff {es : List (String × FileTree)} {t : FileTree} :
    o.gather h es = .ok t ↔ Workspace.firstRepeat [] (Entries.keys es) = none ∧
      t = .dir () es := by
  unfold gather
  cases Workspace.firstRepeat [] (Entries.keys es) <;> simp [eq_comm]

/-- An item off the beaten track of a change: its own children and contents stay, and what its line
consists of. -/
theorem WellFormed.keeps (w : o.WellFormed) (w' : o'.WellFormed) {l : List Handle}
    (hl : o.Line h l) (hs : ∀ x ∈ l, (o'.get? x).map Item.stem = (o.get? x).map Item.stem)
    (hi : o.get? h = some i) (hj : o'.get? h = some j) (hc : j.children = i.children)
    (hcontents : j.contents = i.contents) (hd : o'.document = o.document) : Keeps o o' h := by
  have hstem := hs h hl.self_mem
  rw [hi, hj, Option.map_some, Option.map_some] at hstem
  obtain ⟨hk, hn, -⟩ := Item.stem_eq_iff.mp (Option.some.inj hstem)
  refine ⟨i, j, hi, hj, hk, hn, hc, fun _ c hdata => ?_⟩
  unfold Outline.data at hdata ⊢
  rw [hj, hd, w.diskPath_of_stem w' hl hs, Option.bind_some, hcontents]
  rwa [hi, Option.bind_some] at hdata

/-- An image stays what it is when all items at and below keep what it is made of. -/
theorem plainImage_keeps {t : FileTree} (w : o.WellFormed) (w' : o'.WellFormed)
    (hi : o.get? h = some i) (hk : ∀ z, o.Below h z → Keeps o o' z)
    (ht : o.plainImage h = .ok t) : o'.plainImage h = .ok t := by
  refine w.child_induction (P := fun h => (∀ z, o.Below h z → Keeps o o' z) →
    ∀ t, o.plainImage h = .ok t → o'.plainImage h = .ok t) ?_ h i hi hk t ht
  intro h i hi ih hk t ht
  obtain ⟨j, i', hj, hi', hkind, -, hchildren, hdata⟩ := hk h .self
  rw [hi] at hj
  obtain rfl := Option.some.inj hj
  by_cases hfile : i.kind = .file
  · rw [w.plainImage_file hi hfile] at ht
    rw [w'.plainImage_file hi' (hkind.trans hfile)]
    unfold plainFile at ht ⊢
    cases hd : o.data h with
    | none =>
        rw [hd] at ht
        cases ht
    | some c =>
        rw [hd] at ht
        rw [hdata hfile c hd]
        exact ht
  · rw [w.plainImage_dir hi hfile] at ht
    rw [w'.plainImage_dir hi' (hkind ▸ hfile), hchildren]
    cases hm : i.children.mapM fun c => (o.plainImage c).map (o.contributed c) with
    | error e =>
        rw [hm] at ht
        cases ht
    | ok parts =>
        rw [hm] at ht
        have hm' : (i.children.mapM fun c => (o'.plainImage c).map (o'.contributed c)) =
            .ok parts := by
          refine mapM_ok_of_ok (fun c hmem b hb => ?_) hm
          have hbelow := w.below_child hi hmem
          obtain ⟨k, k', hget, hget', hkk, hkn, -⟩ := hk c hbelow
          cases hp : o.plainImage c with
          | error e =>
              rw [hp] at hb
              cases hb
          | ok u =>
              rw [hp] at hb
              rw [ih c hmem (fun z hz => hk z (hbelow.trans hz)) u hp, ← hb]
              simp only [Except.map, contributed, hget, hget', Option.elim_some,
                Workspace.contribution, hkk, hkn]
        rw [hm']
        exact gather_eq_ok_iff.mpr (gather_eq_ok_iff.mp ht)

/-! ### Images from named parts -/

theorem mapM_pair {ε β γ : Type} {f : Handle → Except ε β} {g : Handle → β → γ}
    (l : List Handle) : (l.mapM fun c => (f c).map (g c)) =
      (l.mapM fun c => (f c).map (Prod.mk c)).map (List.map fun q => g q.1 q.2) := by
  induction l with
  | nil => rfl
  | cons c l ih =>
      rw [List.mapM_cons, List.mapM_cons, ih]
      cases f c with
      | error e => rfl
      | ok b => cases l.mapM fun c => (f c).map (Prod.mk c) <;> rfl

theorem fst_of_mapM_pair {ε β : Type} {f : Handle → Except ε β} {l : List Handle}
    {qs : List (Handle × β)} (hq : (l.mapM fun c => (f c).map (Prod.mk c)) = .ok qs) :
    qs.map Prod.fst = l := by
  induction l generalizing qs with
  | nil =>
      rw [← Except.ok.inj hq]
      rfl
  | cons c l ih =>
      obtain ⟨q, qs', hc, hl, rfl⟩ := mapM_cons_eq_ok.mp hq
      cases hf : f c with
      | error e =>
          rw [hf] at hc
          cases hc
      | ok b =>
          rw [hf] at hc
          rw [List.map_cons, ih hl, ← Except.ok.inj hc]

theorem WellFormed.plainImage_parts (w : o.WellFormed) (hi : o.get? h = some i)
    (hk : i.kind ≠ .file) : o.plainImage h =
      (i.children.mapM fun c => (o.plainImage c).map (Prod.mk c)).bind fun parts =>
        o.gather h (parts.flatMap fun q => o.contributed q.1 q.2) := by
  rw [w.plainImage_dir hi hk, mapM_pair]
  cases i.children.mapM fun c => (o.plainImage c).map (Prod.mk c) <;> rfl

end Outline

end PackageOutline
