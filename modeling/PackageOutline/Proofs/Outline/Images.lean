import PackageOutline.Proofs.Outline.Making
import PackageOutline.Proofs.Outline.Memory

/-! # Images from memory

Asking for an image answers what `Outline.plainImage` makes without memory, as long as memory is
coherent, and memory stays coherent (`exec_imageAt`). -/

namespace PackageOutline

namespace Workspace

open Outline

variable {o : Outline} {W W' : Workspace} {h : Handle} {i : Item}

/-! ### Files and directories -/

theorem exec_fileImage {r : Except Failure SharedTree} (w : W.outline.WellFormed)
    (a : W.outline.Attached) (hi : W.outline.get? h = some i)
    (hx : exec (fileImage h) W = (r, W')) :
    W'.outline = W.outline ∧ r.map Tree.plain = W.outline.plainFile h := by
  obtain ⟨l, hl⟩ := w.exists_line a hi
  have hnames : exec (read (·.diskNames h)) W = (.ok (W.outline.diskPath h), W) := by
    rw [exec_read, w.diskNames_eq_diskPath hl]
    rfl
  unfold fileImage at hx
  rw [exec_bind_of_ok (exec_item hi)] at hx
  unfold plainFile Outline.data
  rw [hi, Option.bind_some]
  cases hc : i.contents with
  | some c =>
      simp only [hc, exec_make] at hx
      obtain ⟨rfl, rfl⟩ := Prod.mk.inj hx
      exact ⟨rfl, rfl⟩
  | none =>
      simp only [hc] at hx
      rw [exec_bind_of_ok hnames, exec_bind_of_ok (exec_get W)] at hx
      cases hf : W.outline.document.bind (·.find? (W.outline.diskPath h)) with
      | none =>
          rw [hf] at hx
          obtain ⟨rfl, rfl⟩ := Prod.mk.inj hx
          exact ⟨rfl, rfl⟩
      | some t =>
          rw [hf] at hx
          cases t with
          | file l c =>
              obtain ⟨rfl, rfl⟩ := Prod.mk.inj hx
              exact ⟨rfl, by simp [Except.map, Tree.contents?, Tree.plain, Tree.map]⟩
          | dir l es =>
              obtain ⟨rfl, rfl⟩ := Prod.mk.inj hx
              exact ⟨rfl, rfl⟩

/-- Parts of a directory without identities. -/
def plainParts (parts : List (Handle × SharedTree)) : List (Handle × FileTree) :=
  parts.map fun q => (q.1, q.2.plain)

theorem exec_contributions {parts : List (Handle × SharedTree)}
    (live : ∀ q ∈ parts, ∃ k, W.outline.get? q.1 = some k) :
    exec (parts.mapM fun (child, image) => do
      return contribution (← read (·.item child)) image) W =
      (.ok (parts.map fun q => W.outline.contributed q.1 q.2), W) := by
  induction parts with
  | nil => rfl
  | cons q parts ih =>
      obtain ⟨child, image⟩ := q
      obtain ⟨k, hk⟩ := live (child, image) List.mem_cons_self
      have hfirst : exec (do return contribution (← read (·.item child)) image) W =
          (.ok (contribution k image), W) := by
        rw [exec_bind, exec_read, item_of_get? hk]
        rfl
      rw [List.mapM_cons, exec_bind_of_ok hfirst,
        exec_bind_of_ok (ih fun q hq => live q (List.mem_cons_of_mem _ hq)), exec_pure, List.map_cons]
      unfold contributed
      rw [hk, Option.elim_some]

theorem plain_contributed (o : Outline) (parts : List (Handle × SharedTree)) :
    Tree.mapAll (fun _ => ()) (parts.map fun q => o.contributed q.1 q.2).flatten =
      (plainParts parts).flatMap fun q => o.contributed q.1 q.2 := by
  induction parts with
  | nil => rfl
  | cons q parts ih =>
      have hq : Tree.mapAll (fun _ => ()) (o.contributed q.1 q.2) =
          o.contributed q.1 q.2.plain := by
        unfold contributed
        cases o.get? q.1 with
        | none => rfl
        | some k => exact mapAll_contribution _ k q.2
      simp only [List.map_cons, List.flatten_cons, Tree.mapAll_append, hq, ih, plainParts,
        List.flatMap_cons]

theorem exec_assemble {r : Except Failure SharedTree} {parts : List (Handle × SharedTree)}
    (w : W.outline.WellFormed) (a : W.outline.Attached) (hi : W.outline.get? h = some i)
    (live : ∀ q ∈ parts, ∃ k, W.outline.get? q.1 = some k)
    (hx : exec (assemble h parts) W = (r, W')) :
    W'.outline = W.outline ∧ r.map Tree.plain = W.outline.gather h
      ((plainParts parts).flatMap fun q => W.outline.contributed q.1 q.2) := by
  obtain ⟨l, hl⟩ := w.exists_line a hi
  have hnames : exec (read (·.diskNames h)) W = (.ok (W.outline.diskPath h), W) := by
    rw [exec_read, w.diskNames_eq_diskPath hl]
    rfl
  unfold assemble at hx
  rw [exec_bind_of_ok (exec_contributions live)] at hx
  rw [← plain_contributed]
  unfold gather
  rw [Tree.keys_mapAll]
  cases hrep : firstRepeat [] (Entries.keys
      (parts.map fun q => W.outline.contributed q.1 q.2).flatten) with
  | some name =>
      simp only [hrep] at hx
      rw [exec_bind_of_ok hnames] at hx
      obtain ⟨rfl, rfl⟩ := Prod.mk.inj hx
      exact ⟨rfl, rfl⟩
  | none =>
      simp only [hrep, exec_make] at hx
      obtain ⟨rfl, rfl⟩ := Prod.mk.inj hx
      exact ⟨rfl, rfl⟩

/-! ### Asking for an image -/

theorem cached_eq_some {held : List SharedTree} {t : SharedTree} (hc : i.cached held = some t) :
    i.dirty = false ∧ i.cache = some t := by
  unfold Item.cached at hc
  split at hc
  · cases hc
  · rename_i hd
    exact ⟨by simpa using hd, (Option.filter_eq_some_iff.mp hc).1⟩

/-- An image that is made is also remembered; `mark` is what becomes of the mark. -/
theorem exec_remembering {x : Work SharedTree} {mark : Bool → Bool} {r : Except Failure SharedTree}
    (w : W.outline.WellFormed) (a : W.outline.Attached) (co : W.outline.Coherent)
    (hi : W.outline.get? h = some i)
    (hmade : ∀ {r₁ W₁}, exec x W = (r₁, W₁) →
      W₁.outline = W.outline ∧ r₁.map Tree.plain = W.outline.plainImage h)
    (hx : exec (remembering h mark x) W = (r, W')) :
    W'.outline.Coherent ∧ r.map Tree.plain = W.outline.plainImage h ∧
      ((∃ e, r = .error e ∧ W'.outline = W.outline) ∨ ∃ t, r = .ok t ∧
        W'.outline = W.outline.set h { i with dirty := mark i.dirty, cache := some t }) := by
  rcases exec_bind_cases hx with ⟨e, hrun, rfl⟩ | ⟨t, W₁, hrun, hrest⟩
  · obtain ⟨ho, hplain⟩ := hmade hrun
    exact ⟨ho ▸ co, hplain, Or.inl ⟨e, rfl, ho⟩⟩
  · obtain ⟨ho, hplain⟩ := hmade hrun
    rw [← ho] at hi
    rw [exec_bind_of_ok (exec_updateItem hi _)] at hrest
    obtain ⟨rfl, rfl⟩ := Prod.mk.inj hrest
    rw [← ho] at co hplain w a ⊢
    exact ⟨co.remember w a hi hplain.symm _, hplain, Or.inr ⟨t, rfl, rfl⟩⟩

/-- The images of some items, asked for one by one, given what asking for one of them comes to. -/
theorem exec_imageParts {held made : List SharedTree} {levels : Nat} {cs : List Handle}
    {r : Except Failure (List (Handle × SharedTree))}
    (ih : ∀ {c made V V'} {r : Except Failure SharedTree}, c ∈ cs → SameTree o V.outline →
      V.outline.Coherent → exec (imageAt held levels made c) V = (r, V') →
      r.map Tree.plain = o.plainImage c ∧ Kept (fun _ => False) V.outline V'.outline)
    (st : SameTree o W.outline) (co : W.outline.Coherent)
    (hx : exec (imageParts held levels made cs) W = (r, W')) :
    r.map plainParts = (cs.mapM fun c => (o.plainImage c).map (Prod.mk c)) ∧
      Kept (fun _ => False) W.outline W'.outline := by
  have hfold := exec_foldlM plainParts (fun c => (o.plainImage c).map (Prod.mk c))
    (fun _ V => Kept (fun _ => False) W.outline V.outline) [] ?_ ⟨.refl _ _, co⟩ hx
  · obtain ⟨hview, ⟨-, hkept⟩, -⟩ := hfold
    refine ⟨?_, hkept⟩
    rw [hview]
    cases cs.mapM fun c => (o.plainImage c).map (Prod.mk c) <;> rfl
  · intro done parts c V rc V' hmem kV hstep
    obtain ⟨rp, hrun, rfl⟩ := imagePart_of_exec hstep
    obtain ⟨hp, kp⟩ := ih hmem (st.trans kV.cleared.tree) kV.coherent hrun
    have k := kp.after kV.cleared
    refine ⟨?_, ⟨done, k⟩, fun _ _ => k⟩
    rw [← hp]
    cases rp with
    | error e => rfl
    | ok t => simp [Except.map, plainParts]

theorem plainImage_of_failed_parts {β : Type} {e : Failure} {view : β → List (Handle × FileTree)}
    (w : o.WellFormed) (hi : o.get? h = some i) (hk : i.kind ≠ .file)
    (hview : (Except.error e).map view =
      i.children.mapM fun c => (o.plainImage c).map (Prod.mk c)) : o.plainImage h = .error e := by
  rw [w.plainImage_parts hi hk, ← hview]
  rfl

theorem exec_assemble_children {r : Except Failure SharedTree} {parts : List (Handle × SharedTree)}
    (w : o.WellFormed) (a : o.Attached) (st : SameTree o W.outline) (hi : o.get? h = some i)
    (hk : i.kind ≠ .file)
    (hview : Except.ok (plainParts parts) =
      i.children.mapM fun c => (o.plainImage c).map (Prod.mk c))
    (hx : exec (assemble h parts) W = (r, W')) :
    W'.outline = W.outline ∧ r.map Tree.plain = W.outline.plainImage h := by
  obtain ⟨i', hi', -⟩ := st.agree.get?_eq_some hi
  have hfst := fst_of_mapM_pair hview.symm
  have live : ∀ q ∈ parts, ∃ k, W.outline.get? q.1 = some k := by
    intro q hq
    have hmem : q.1 ∈ i.children := by
      rw [← hfst, plainParts, List.map_map]
      exact List.mem_map_of_mem hq
    obtain ⟨k, hkc, -⟩ := w.child hi hmem
    obtain ⟨k', hk', -⟩ := st.agree.get?_eq_some hkc
    exact ⟨k', hk'⟩
  obtain ⟨ho, hr⟩ := exec_assemble (st.wellFormed w) (st.attached a) hi' live hx
  refine ⟨ho, ?_⟩
  rw [hr, st.plainImage w a hi, w.plainImage_parts hi hk, ← hview]
  show _ = o.gather h _
  unfold gather
  rw [st.diskPath w a hi, List.flatMap_congr fun q _ => st.contributed q.1 q.2]

theorem exec_rememberAsked {V : Workspace} {i₀ : Item} {x : Work SharedTree}
    {r : Except Failure SharedTree} (w : o.WellFormed) (a : o.Attached)
    (hi₀ : o.get? h = some i₀) (st : SameTree o W.outline)
    (k : Kept (fun _ => False) W.outline V.outline)
    (hmade : ∀ {r₁ V₁}, exec x V = (r₁, V₁) →
      V₁.outline = V.outline ∧ r₁.map Tree.plain = V.outline.plainImage h)
    (hx : exec (remembering h id x) V = (r, W')) :
    r.map Tree.plain = o.plainImage h ∧ Kept (fun _ => False) W.outline W'.outline := by
  have stV := st.trans k.cleared.tree
  obtain ⟨i, hi, -⟩ := stV.agree.get?_eq_some hi₀
  obtain ⟨co, hplain, hout⟩ := exec_remembering (stV.wellFormed w) (stV.attached a) k.coherent hi
    hmade hx
  refine ⟨?_, ?_, co⟩
  · rw [hplain, stV.plainImage w a hi₀]
  · rcases hout with ⟨e, -, ho⟩ | ⟨t, -, ho⟩
    · rw [ho]
      exact k.cleared
    · rw [ho]
      exact k.cleared.trans (.set hi rfl (fun hd => hd) (Or.inr rfl))

/-- Asking for an image gives what the plain computation gives, and keeps memory coherent. -/
theorem exec_imageAt {held : List SharedTree} (w : o.WellFormed) (a : o.Attached) {levels : Nat}
    {made : List SharedTree} {r : Except Failure SharedTree} (hf : o.Fits levels h)
    (st : SameTree o W.outline) (co : W.outline.Coherent)
    (hx : exec (imageAt held levels made h) W = (r, W')) :
    r.map Tree.plain = o.plainImage h ∧ Kept (fun _ => False) W.outline W'.outline := by
  induction levels generalizing made h W r W' with
  | zero => exact hf.elim
  | succ levels ih =>
      obtain ⟨i₀, hi₀, hc⟩ := hf
      obtain ⟨i, hi, hb⟩ := st.agree.get?_eq_some hi₀
      obtain ⟨hkind, -, -, hchildren⟩ := Item.frame_eq_iff.mp (Item.bare_eq_iff.mp hb).1
      cases imageRun_of_exec hi hx with
      | cached hcached =>
          obtain ⟨hclean, hcache⟩ := cached_eq_some hcached
          refine ⟨?_, .refl _ _, co⟩
          rw [← st.plainImage w a hi₀, co hi hclean hcache]
          rfl
      | file _ hfile hmade =>
          refine exec_rememberAsked w a hi₀ st ⟨.refl _ _, co⟩ (fun hrun => ?_) hmade
          have w₀ := st.wellFormed w
          obtain ⟨ho, hplain⟩ := exec_fileImage w₀ (st.attached a) hi hrun
          exact ⟨ho, by rw [hplain, w₀.plainImage_file hi hfile]⟩
      | failed _ hfile hparts =>
          obtain ⟨hview, k⟩ := exec_imageParts (fun hmem => ih (hc _ (hchildren ▸ hmem))) st co hparts
          rw [hchildren] at hview
          exact ⟨(plainImage_of_failed_parts w hi₀ (hkind ▸ hfile) hview).symm, k⟩
      | dir _ hfile hparts hmade =>
          obtain ⟨hview, k⟩ := exec_imageParts (fun hmem => ih (hc _ (hchildren ▸ hmem))) st co hparts
          rw [hchildren] at hview
          exact exec_rememberAsked w a hi₀ st k (exec_assemble_children w a
            (st.trans k.cleared.tree) hi₀ (hkind ▸ hfile) hview) hmade

end Workspace

end PackageOutline
