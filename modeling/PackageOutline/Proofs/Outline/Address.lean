import PackageOutline.Proofs.Disk.Names
import PackageOutline.Proofs.Outline.WellFormed

/-! # Addresses of items

In a well-formed outline climbing from an item finds its line, so both addresses of the item are
read off the line: `WellFormed.diskNames_eq` gives the names on disk, `WellFormed.relativePath_of_line`
the relative path.  Whether or not they can be found, they depend on kinds, names and parents alone
(`AgreeOn.relativePath_eq`, `AgreeOn.diskNames_eq`).

`Outline.diskPath` is the address on disk as a total function.  It is the address of the parent and
what the item itself adds (`WellFormed.diskPath_child`), and depends on the line alone
(`WellFormed.diskPath_congr`). -/

namespace PackageOutline

/-- What an item adds to the paths on disk of the items at and below it. -/
def Item.pathPart (i : Item) : List String := if i.kind.namesPath then [i.name] else []

namespace Outline

variable {o o' : Outline} {h c p : Handle} {i j : Item} {l : List Handle}

/-- What the item of a handle adds to paths on disk. -/
def partAt (o : Outline) (h : Handle) : List String := (o.get? h).elim [] Item.pathPart

/-- The names on the way to an item on disk; none when its address cannot be found. -/
def diskPath (o : Outline) (h : Handle) : List String := (o.diskNames h).toOption.getD []

theorem climb_eq (hl : o.Line h l) (origin : Handle) {steps : Nat} (hs : l.length ≤ steps + 1)
    (below : List Handle) : o.climb origin steps below h = .ok (l.reverse ++ below) := by
  induction hl generalizing steps below with
  | root hi hp =>
      cases steps with
      | zero =>
          unfold climb
          simp only [item_of_get? hi, bind, Except.bind, hp]
          rfl
      | succ steps =>
          unfold climb
          simp only [item_of_get? hi, bind, Except.bind, hp]
          rfl
  | @step h p i l hi hp hl ih =>
      have hpos := List.length_pos_of_mem hl.self_mem
      rw [List.length_cons] at hs
      obtain ⟨steps, rfl⟩ : ∃ n, steps = n + 1 := ⟨steps - 1, by omega⟩
      unfold climb
      simp only [item_of_get? hi, bind, Except.bind, hp]
      rw [ih (by omega) (h :: below)]
      simp

theorem WellFormed.lineage_eq (w : o.WellFormed) (hl : o.Line h l) :
    o.lineage h = .ok l.reverse := by
  have hle := w.line_length_le hl
  unfold lineage
  rw [climb_eq hl h (by omega), List.append_nil]

theorem items_eq {hs : List Handle} (live : ∀ x ∈ hs, ∃ i, o.get? x = some i) :
    o.items hs = .ok (hs.map fun x => (o.get? x).getD default) := by
  unfold items
  induction hs with
  | nil => rfl
  | cons x hs ih =>
      obtain ⟨i, hi⟩ := live x List.mem_cons_self
      rw [List.mapM_cons, ih fun y hy => live y (List.mem_cons_of_mem _ hy), item_of_get? hi]
      simp [hi, bind, Except.bind, pure, Except.pure]

theorem map_name_filter (o : Outline) {hs : List Handle}
    (live : ∀ x ∈ hs, ∃ i, o.get? x = some i) :
    ((hs.map fun x => (o.get? x).getD default).filter (·.kind.namesPath)).map Item.name =
      hs.flatMap o.partAt := by
  induction hs with
  | nil => rfl
  | cons x hs ih =>
      obtain ⟨i, hi⟩ := live x List.mem_cons_self
      have ih := ih fun y hy => live y (List.mem_cons_of_mem _ hy)
      rw [List.map_cons, List.filter_cons, List.flatMap_cons]
      unfold partAt Item.pathPart
      rw [hi, Option.getD_some, Option.elim_some]
      unfold partAt Item.pathPart at ih
      split
      · rw [List.map_cons, ih, List.singleton_append]
      · rw [ih, List.nil_append]

/-- The names on disk are what the items on the line add. -/
theorem WellFormed.diskNames_eq (w : o.WellFormed) (hl : o.Line h l) :
    o.diskNames h = .ok (l.reverse.flatMap o.partAt) := by
  have live : ∀ x ∈ l.reverse, ∃ i, o.get? x = some i :=
    fun x hx => hl.live x (List.mem_reverse.mp hx)
  unfold diskNames
  rw [w.lineage_eq hl]
  simp only [bind, Except.bind]
  rw [items_eq live]
  simp only [pure, Except.pure, map_name_filter o live]

theorem WellFormed.diskPath_eq (w : o.WellFormed) (hl : o.Line h l) :
    o.diskPath h = l.reverse.flatMap o.partAt := by
  unfold diskPath
  rw [w.diskNames_eq hl]
  rfl

theorem WellFormed.diskNames_eq_diskPath (w : o.WellFormed) (hl : o.Line h l) :
    o.diskNames h = .ok (o.diskPath h) := by
  rw [w.diskPath_eq hl, w.diskNames_eq hl]

theorem WellFormed.diskPath_root (w : o.WellFormed) : o.diskPath Outline.root = [] := by
  obtain ⟨i, hi, hk, hp⟩ := w.root
  rw [w.diskPath_eq (.root hi hp)]
  simp [partAt, hi, Item.pathPart, hk, Kind.namesPath]

/-- An item adds its part to the path of its parent. -/
theorem WellFormed.diskPath_child (w : o.WellFormed) (hl : o.Line p l) (hi : o.get? c = some i)
    (hp : i.parent = some p) : o.diskPath c = o.diskPath p ++ i.pathPart := by
  rw [w.diskPath_eq (.step hi hp hl), w.diskPath_eq hl]
  simp [partAt, hi]

/-- The path of an item depends on its line and what the items there add. -/
theorem WellFormed.diskPath_congr (w : o.WellFormed) (w' : o'.WellFormed) (hl : o.Line h l)
    (hl' : o'.Line h l) (hp : ∀ x ∈ l, o'.partAt x = o.partAt x) :
    o'.diskPath h = o.diskPath h := by
  rw [w.diskPath_eq hl, w'.diskPath_eq hl']
  exact List.flatMap_congr fun x hx => hp x (List.mem_reverse.mp hx)

theorem partAt_congr (hx : (o'.get? h).map Item.stem = (o.get? h).map Item.stem) :
    o'.partAt h = o.partAt h := by
  unfold partAt
  cases hi : o.get? h <;> cases hj : o'.get? h <;> simp_all [Item.stem, Item.pathPart]

/-- An item stays where it is when the items on its line stay what they were made as. -/
theorem WellFormed.diskPath_of_stem (w : o.WellFormed) (w' : o'.WellFormed) (hl : o.Line h l)
    (hs : ∀ x ∈ l, (o'.get? x).map Item.stem = (o.get? x).map Item.stem) :
    o'.diskPath h = o.diskPath h :=
  w.diskPath_congr w' hl (hl.congr_stem hs) fun x hx => partAt_congr (hs x hx)

theorem WellFormed.names_diskPath (w : o.WellFormed) (hl : o.Line h l) :
    Path.Names (o.diskPath h) := by
  rw [w.diskPath_eq hl]
  intro n hn
  obtain ⟨x, hx, hn⟩ := List.mem_flatMap.mp hn
  obtain ⟨i, hi⟩ := hl.live x (List.mem_reverse.mp hx)
  rw [partAt, hi, Option.elim_some, Item.pathPart] at hn
  split at hn
  · rename_i hpath
    rw [List.mem_singleton.mp hn]
    exact w.valid hi (w.ne_root hi hpath)
  · cases hn

/-- The relative path is made of the names of the items on the line below the root. -/
theorem WellFormed.relativePath_of_line (w : o.WellFormed) (hl : o.Line h l) :
    o.relativePath h = .ok ("/".intercalate
      ((l.reverse.tail.map fun x => (o.get? x).getD default).map Item.name)) := by
  have live : ∀ x ∈ l.reverse.tail, ∃ i, o.get? x = some i :=
    fun x hx => hl.live x (List.mem_reverse.mp (List.mem_of_mem_tail hx))
  unfold relativePath
  rw [w.lineage_eq hl]
  simp only [bind, Except.bind]
  rw [items_eq live]
  rfl

theorem WellFormed.relativePath_isOk (w : o.WellFormed) (hl : o.Line h l) :
    ∃ path, o.relativePath h = .ok path := ⟨_, w.relativePath_of_line hl⟩

/-! ### Outlines with the same addresses -/

section
variable {β γ : Type} {f : Item → β}

theorem AgreeOn.item_map (a : AgreeOn f o o') (h : Handle) :
    (o'.item h).map f = (o.item h).map f := by
  have hm := a.get h
  unfold item
  cases hi : o.get? h <;> cases hj : o'.get? h <;> simp_all [Except.map]

theorem AgreeOn.item_bind (a : AgreeOn f o o') {F F' : Item → Except Violation γ}
    (hF : ∀ i j, f j = f i → F' j = F i) : (o'.item h >>= F') = o.item h >>= F := by
  have hm := a.get h
  unfold item
  cases hi : o.get? h with
  | none =>
      rw [hi] at hm
      rw [Option.map_eq_none_iff.mp hm]
      rfl
  | some i =>
      obtain ⟨j, hj, hji⟩ := a.get?_eq_some hi
      rw [hj]
      exact hF i j hji

theorem AgreeOn.climb_eq (a : AgreeOn Item.parent o o') (origin : Handle) (steps : Nat)
    (below : List Handle) (h : Handle) :
    o'.climb origin steps below h = o.climb origin steps below h := by
  induction steps generalizing below h with
  | zero =>
      unfold climb
      exact a.item_bind fun i j hp => by rw [hp]
  | succ steps ih =>
      unfold climb
      refine a.item_bind fun i j hp => ?_
      rw [hp]
      cases i.parent with
      | none => rfl
      | some p => exact ih _ p

theorem AgreeOn.lineage_eq (a : AgreeOn Item.parent o o') (h : Handle) :
    o'.lineage h = o.lineage h := by
  unfold lineage itemCount
  rw [a.size, a.free, a.climb_eq]

theorem AgreeOn.items_map (a : AgreeOn f o o') (hs : List Handle) :
    (o'.items hs).map (List.map f) = (o.items hs).map (List.map f) := by
  unfold items
  induction hs with
  | nil => rfl
  | cons x hs ih =>
      have hm := a.item_map x
      rw [List.mapM_cons, List.mapM_cons]
      cases hi : o.item x <;> cases hj : o'.item x <;>
        cases hl : hs.mapM o.item <;> cases hl' : hs.mapM o'.item <;>
        simp_all [Except.map, bind, Except.bind, pure, Except.pure]

theorem AgreeOn.items_bind (a : AgreeOn f o o') (hs : List Handle) {F : List Item → γ}
    (G : List β → γ) (hF : ∀ items, F items = G (items.map f)) :
    (o'.items hs >>= fun items => pure (F items)) = o.items hs >>= fun items => pure (F items) := by
  have hm := a.items_map hs
  cases hi : o.items hs <;> cases hj : o'.items hs <;>
    simp_all [Except.map, bind, Except.bind]

/-- Both addresses, and what is said when they cannot be found, depend on what items are made as. -/
theorem AgreeOn.relativePath_eq (a : AgreeOn Item.stem o o') (h : Handle) :
    o'.relativePath h = o.relativePath h := by
  unfold relativePath
  rw [(a.comp (fun f => f.2.2) fun _ => rfl : AgreeOn Item.parent o o').lineage_eq]
  refine congrArg (o.lineage h >>= ·) (funext fun line => ?_)
  refine a.items_bind line.tail (fun stems => "/".intercalate (stems.map (·.2.1))) fun items => ?_
  rw [List.map_map]
  rfl

theorem AgreeOn.diskNames_eq (a : AgreeOn Item.stem o o') (h : Handle) :
    o'.diskNames h = o.diskNames h := by
  unfold diskNames
  rw [(a.comp (fun f => f.2.2) fun _ => rfl : AgreeOn Item.parent o o').lineage_eq]
  refine congrArg (o.lineage h >>= ·) (funext fun line => ?_)
  refine a.items_bind line (fun stems => (stems.filter (·.1.namesPath)).map (·.2.1)) fun items => ?_
  rw [List.filter_map, List.map_map]
  rfl

end

end Outline

end PackageOutline
