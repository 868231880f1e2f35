import PackageOutline.Proofs.Exec
import PackageOutline.Proofs.Outline.Arena

/-! # How images are made

Asking for an image and refreshing one go the same way: what the children give is gathered one by one
(`imageParts`, `refreshParts`), made into a directory, and remembered (`remembering`).  The equations
`imageAt_succ` and `refreshAt_succ` put the two computations together from these parts.

A run of one of them is a case of `ImageRun` or `RefreshRun` (`imageRun_of_exec`, `refreshRun_of_exec`);
proofs about images are case analyses over these. -/

namespace PackageOutline

namespace Workspace

open Outline

variable {held made : List SharedTree} {levels : Nat} {h c : Handle} {i : Item}
  {W V W' : Workspace}

/-! ### Parts of the computations -/

/-- The image of one more child, made with those before it at hand. -/
def imagePart (held : List SharedTree) (levels : Nat) (made : List SharedTree)
    (parts : List (Handle × SharedTree)) (child : Handle) : Work (List (Handle × SharedTree)) := do
  let part ← imageAt held levels (parts.map Prod.snd ++ made) child
  return parts ++ [(child, part)]

/-- The images of children, asked for one by one. -/
def imageParts (held : List SharedTree) (levels : Nat) (made : List SharedTree)
    (children : List Handle) : Work (List (Handle × SharedTree)) :=
  children.foldlM (imagePart held levels made) []

/-- The image of one more child, a new one if the child is dirty; new ones are counted. -/
def refreshPart (held : List SharedTree) (levels : Nat) (made : List SharedTree)
    (gathered : List (Handle × SharedTree) × Nat) (child : Handle) :
    Work (List (Handle × SharedTree) × Nat) := do
  let (parts, fresh) := gathered
  let made := parts.map Prod.snd ++ made
  match ← refreshAt held levels made child with
  | some part => return (parts ++ [(child, part)], fresh + 1)
  | none => return (parts ++ [(child, ← imageAt held levels made child)], fresh)

/-- The images of children, those of dirty ones made anew. -/
def refreshParts (held : List SharedTree) (levels : Nat) (made : List SharedTree)
    (children : List Handle) : Work (List (Handle × SharedTree) × Nat) :=
  children.foldlM (refreshPart held levels made) ([], 0)

/-- Makes an image and remembers it; `mark` is what becomes of the mark. -/
def remembering (h : Handle) (mark : Bool → Bool) (x : Work SharedTree) : Work SharedTree := do
  let image ← x
  updateItem h fun i => { i with dirty := mark i.dirty, cache := some image }
  return image

theorem imageAt_succ : imageAt held (levels + 1) made h = (do
    let i ← read (·.item h)
    match i.cached (made ++ held) with
    | some image =>
      note .trace .images s!"Reusing cached wrapper of {h.text}"
      return image
    | none =>
      remembering h id
        (if i.kind = .file then fileImage h
        else imageParts held levels made i.children >>= assemble h)) := by
  rw [imageAt]
  refine bind_congr fun i => ?_
  cases i.cached (made ++ held) with
  | some t => rfl
  | none =>
      dsimp only
      split
      · rfl
      · rw [remembering, bind_assoc]
        rfl

theorem refreshAt_succ : refreshAt held (levels + 1) made h = (do
    let i ← read (·.item h)
    if !i.dirty then return none
    let image ← remembering h (fun _ => false)
      (if i.kind = .file then fileImage h
      else do
        let (parts, fresh) ← refreshParts held levels made i.children
        let path := ((← get).outline.relativePath h).toOption.getD ""
        note .debug .images
          s!"Rebuilding '{path}' with {fresh} of {parts.length} children updated"
        assemble h parts)
    return some image) := by
  rw [refreshAt]
  refine bind_congr fun i => ?_
  split
  · rfl
  · dsimp only
    split
    · simp only [remembering, bind_assoc]
      rfl
    · simp only [remembering, bind_assoc]
      rfl

/-! ### Runs -/

theorem imagePart_of_exec {parts : List (Handle × SharedTree)}
    {r : Except Failure (List (Handle × SharedTree))}
    (hx : exec (imagePart held levels made parts c) V = (r, W')) :
    ∃ rp, exec (imageAt held levels (parts.map Prod.snd ++ made) c) V = (rp, W') ∧
      r = rp.map fun t => parts ++ [(c, t)] :=
  exec_bind_pure hx

/-- How a child gives a part to a refresh. -/
inductive PartRun (held : List SharedTree) (levels : Nat) (made : List SharedTree) (c : Handle)
    (parts : List (Handle × SharedTree)) (fresh : Nat) (V : Workspace) :
    Except Failure (List (Handle × SharedTree) × Nat) → Workspace → Prop
  | failed {e V'} : exec (refreshAt held levels (parts.map Prod.snd ++ made) c) V = (.error e, V') →
      PartRun held levels made c parts fresh V (.error e) V'
  | renewed {t V'} :
      exec (refreshAt held levels (parts.map Prod.snd ++ made) c) V = (.ok (some t), V') →
      PartRun held levels made c parts fresh V (.ok (parts ++ [(c, t)], fresh + 1)) V'
  | asked {V₁ rp V'} :
      exec (refreshAt held levels (parts.map Prod.snd ++ made) c) V = (.ok none, V₁) →
      exec (imageAt held levels (parts.map Prod.snd ++ made) c) V₁ = (rp, V') →
      PartRun held levels made c parts fresh V (rp.map fun t => (parts ++ [(c, t)], fresh)) V'

theorem partRun_of_exec {parts : List (Handle × SharedTree)} {fresh : Nat}
    {r : Except Failure (List (Handle × SharedTree) × Nat)}
    (hx : exec (refreshPart held levels made (parts, fresh) c) V = (r, W')) :
    PartRun held levels made c parts fresh V r W' := by
  unfold refreshPart at hx
  rcases exec_bind_cases hx with ⟨e, hrun, rfl⟩ | ⟨b, V₁, hrun, hrest⟩
  · exact .failed hrun
  cases b with
  | some t =>
      obtain ⟨rfl, rfl⟩ := Prod.mk.inj hrest
      exact .renewed hrun
  | none =>
      obtain ⟨rp, himage, rfl⟩ := exec_bind_pure hrest
      exact .asked hrun himage

/-- How asking an item for its image goes. -/
inductive ImageRun (held : List SharedTree) (levels : Nat) (made : List SharedTree) (h : Handle)
    (i : Item) (W : Workspace) : Except Failure SharedTree → Workspace → Prop
  | cached {t notices} : i.cached (made ++ held) = some t →
      ImageRun held levels made h i W (.ok t) { W with notices }
  | file {r W'} : i.cached (made ++ held) = none → i.kind = .file →
      exec (remembering h id (fileImage h)) W = (r, W') → ImageRun held levels made h i W r W'
  | failed {e V} : i.cached (made ++ held) = none → i.kind ≠ .file →
      exec (imageParts held levels made i.children) W = (.error e, V) →
      ImageRun held levels made h i W (.error e) V
  | dir {parts V r W'} : i.cached (made ++ held) = none → i.kind ≠ .file →
      exec (imageParts held levels made i.children) W = (.ok parts, V) →
      exec (remembering h id (assemble h parts)) V = (r, W') →
      ImageRun held levels made h i W r W'

theorem exec_item (hi : W.outline.get? h = some i) :
    exec (read (·.item h)) W = (.ok i, W) := by
  rw [exec_read, item_of_get? hi]
  rfl

theorem exec_remembering_of_ok {α : Type} {mark : Bool → Bool} {x : Work α}
    {f : α → Work SharedTree} {a : α} (hx : exec x W = (.ok a, V)) :
    exec (remembering h mark (x >>= f)) W = exec (remembering h mark (f a)) V := by
  rw [remembering, bind_assoc]
  exact exec_bind_of_ok hx

theorem exec_remembering_bind {α : Type} {mark : Bool → Bool} {x : Work α}
    {f : α → Work SharedTree} {r : Except Failure SharedTree}
    (hx : exec (remembering h mark (x >>= f)) W = (r, W')) :
    (∃ e, exec x W = (.error e, W') ∧ r = .error e) ∨
      ∃ a V, exec x W = (.ok a, V) ∧ exec (remembering h mark (f a)) V = (r, W') := by
  rw [remembering, bind_assoc] at hx
  exact exec_bind_cases hx

theorem imageRun_of_exec {r : Except Failure SharedTree} (hi : W.outline.get? h = some i)
    (hx : exec (imageAt held (levels + 1) made h) W = (r, W')) :
    ImageRun held levels made h i W r W' := by
  rw [imageAt_succ, exec_bind_of_ok (exec_item hi)] at hx
  cases hcached : i.cached (made ++ held) with
  | some t =>
      simp only [hcached] at hx
      rw [exec_bind_of_ok (exec_note ..)] at hx
      obtain ⟨rfl, rfl⟩ := Prod.mk.inj hx
      exact .cached hcached
  | none =>
      simp only [hcached] at hx
      by_cases hfile : i.kind = .file
      · rw [if_pos hfile] at hx
        exact .file hcached hfile hx
      · rw [if_neg hfile] at hx
        rcases exec_remembering_bind hx with ⟨e, hparts, rfl⟩ | ⟨parts, V, hparts, hrest⟩
        · exact .failed hcached hfile hparts
        · exact .dir hcached hfile hparts hrest

/-- How refreshing an item goes. -/
inductive RefreshRun (held : List SharedTree) (levels : Nat) (made : List SharedTree) (h : Handle)
    (i : Item) (W : Workspace) : Except Failure (Option SharedTree) → Workspace → Prop
  | clean : i.dirty = false → RefreshRun held levels made h i W (.ok none) W
  | file {r W'} : i.dirty = true → i.kind = .file →
      exec (remembering h (fun _ => false) (fileImage h)) W = (r, W') →
      RefreshRun held levels made h i W (r.map some) W'
  | failed {e V} : i.dirty = true → i.kind ≠ .file →
      exec (refreshParts held levels made i.children) W = (.error e, V) →
      RefreshRun held levels made h i W (.error e) V
  | dir {b V notices r W'} : i.dirty = true → i.kind ≠ .file →
      exec (refreshParts held levels made i.children) W = (.ok b, V) →
      exec (remembering h (fun _ => false) (assemble h b.1)) { V with notices } = (r, W') →
      RefreshRun held levels made h i W (r.map some) W'

theorem exec_refreshAt_of_none (hnone : W.outline.get? h = none) :
    exec (refreshAt held (levels + 1) made h) W = (.error (.violation (.missing h)), W) := by
  have hread : exec (read (·.item h)) W = (.error (.violation (.missing h)), W) := by
    rw [exec_read, Outline.item, hnone]
    rfl
  rw [refreshAt_succ, exec_bind_of_error hread]

theorem refreshRun_of_exec {r : Except Failure (Option SharedTree)}
    (hi : W.outline.get? h = some i)
    (hx : exec (refreshAt held (levels + 1) made h) W = (r, W')) :
    RefreshRun held levels made h i W r W' := by
  rw [refreshAt_succ, exec_bind_of_ok (exec_item hi)] at hx
  cases hd : i.dirty with
  | false =>
      simp only [hd, Bool.not_false, ↓reduceIte] at hx
      obtain ⟨rfl, rfl⟩ := Prod.mk.inj hx
      exact .clean hd
  | true =>
      simp only [hd, Bool.not_true, Bool.false_eq_true, ↓reduceIte] at hx
      obtain ⟨r₁, hmade, rfl⟩ := exec_bind_pure hx
      by_cases hfile : i.kind = .file
      · rw [if_pos hfile] at hmade
        exact .file hd hfile hmade
      · rw [if_neg hfile] at hmade
        rcases exec_remembering_bind hmade with ⟨e, hparts, rfl⟩ | ⟨b, V, hparts, hrest⟩
        · exact .failed hd hfile hparts
        · rw [exec_remembering_of_ok (exec_get V), exec_remembering_of_ok (exec_note ..)] at hrest
          exact .dir hd hfile hparts hrest

end Workspace

end PackageOutline
