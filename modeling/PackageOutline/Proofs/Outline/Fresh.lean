import PackageOutline.Description.Build
import PackageOutline.Proofs.Outline.Soundness

/-! # New outlines

An outline that nobody worked on yet has no marks, no memory and no contents of its own
(`Outline.Fresh`).  So are the outline of a package without items, and every outline that is built
from a description (`Description.fresh_of_build`). -/

namespace PackageOutline

namespace Outline

variable {o o₁ o₂ : Outline} {h x p : Handle} {i : Item} {document : Option SharedTree}

/-- An outline on a document that nobody worked on yet. -/
structure Fresh (document : Option SharedTree) (o : Outline) : Prop where
  tree : o.WellFormed
  attached : o.Attached
  document : o.document = document
  idle : ∀ {h i}, o.get? h = some i → i.dirty = false ∧ i.cache = none ∧ i.contents = none

theorem get?_new (package : String) (document : Option SharedTree) (h : Handle) :
    (new package document).get? h =
      if h = root then some { kind := .package, name := package, parent := none } else none := by
  obtain ⟨n, g⟩ := h
  by_cases hn : n = 0
  · subst hn
    by_cases hg : g = 0 <;> simp [get?, new, root, hg, eq_comm]
  · simp [get?, new, root, hn]

theorem get?_new_root (package : String) (document : Option SharedTree) :
    (new package document).get? root =
      some { kind := .package, name := package, parent := none } := by
  rw [get?_new, if_pos rfl]

theorem fresh_new (package : String) (document : Option SharedTree) :
    (new package document).Fresh document := by
  have only : ∀ {h i}, (new package document).get? h = some i → h = root ∧
      i = { kind := .package, name := package, parent := none } := by
    intro h i hi
    rw [get?_new] at hi
    split at hi
    · rename_i hr
      exact ⟨hr, (Option.some.inj hi).symm⟩
    · cases hi
  refine ⟨?_, fun h i hi hr => absurd (only hi).1 hr, rfl, fun hi => ?_⟩
  · constructor
    · exact ⟨_, get?_new_root package document, rfl, rfl⟩
    · refine ⟨List.nodup_nil, fun n => iff_of_false (List.not_mem_nil) ?_⟩
      rintro ⟨hn, hno⟩
      have hzero : n = 0 := by simpa [new] using hn
      exact hno root _ (get?_new_root package document) hzero.symm
    · intro p j c hj hc
      rw [(only hj).2] at hc
      cases hc
    · intro h i p j hi hp
      rw [(only hi).2] at hp
      cases hp
    · intro p j hj
      rw [(only hj).2]
      exact List.nodup_nil
    · intro p j c d i k hj hc
      rw [(only hj).2] at hc
      cases hc
    · exact fun hi _ => (only hi).1
    · exact fun hi hr => absurd (only hi).1 hr
    · intro h i hi hg
      rw [(only hi).2] at hg
      cases hg
    · refine ⟨fun _ => 0, fun {h i p j} hi hp => ?_⟩
      rw [(only hi).2] at hp
      cases hp
  · rw [(only hi).2]
    exact ⟨rfl, rfl, rfl⟩

theorem Fresh.sound (f : o.Fresh document) : o.Sound := by
  refine ⟨f.tree, f.attached, fun x i p j hi hd => ?_, fun x i t hi _ hc => ?_⟩
  · rw [(f.idle hi).1] at hd
    cases hd
  · rw [(f.idle hi).2.1] at hc
    cases hc

/-- Making an item and attaching it leaves the outline fresh. -/
theorem Fresh.place {kind : Kind} {name : String} {q : Handle} {index : Nat}
    (f : o.Fresh document) (hc : o.create p kind name = .ok (h, o₁))
    (ha : o₁.attach q index h = .ok o₂) : o₂.Fresh document := by
  obtain ⟨j, rfl, n, w₂⟩ := f.tree.create_attach f.attached hc ha
  refine ⟨w₂, n.attached f.attached, n.document.trans f.document, fun {x i} hi => ?_⟩
  rw [n.get] at hi
  split at hi
  · rw [← Option.some.inj hi]
    exact ⟨rfl, rfl, rfl⟩
  · split at hi
    · obtain ⟨hdirty, hcache, hcontents⟩ := f.idle n.above
      rw [← Option.some.inj hi]
      exact ⟨hdirty, hcache, hcontents⟩
    · exact f.idle hi

end Outline

namespace Description

open Outline

variable {α β : Type} {o o' : Outline} {h p : Handle} {index : Nat} {document : Option SharedTree}

/-! ### Building -/

theorem build_bind_eq_ok {x : Build α} {f : α → Build β} {b : β} :
    ((x >>= f) o).result = .ok (b, o') ↔
      ∃ a o₁, (x o).result = .ok (a, o₁) ∧ (f a o₁).result = .ok (b, o') := by
  show (x o >>= fun r => f r.1 r.2).result = _ ↔ _
  rw [Traced.result_bind]
  rcases (x o).result with e | ⟨a, o₁⟩
  · simp [Except.bind]
  · simp [Except.bind]

theorem edit_eq_ok {e : Edit α} {a : α} :
    (edit e o).result = .ok (a, o') ↔ exec e o = (.ok a, o') := by
  show ((exec e o).1.map fun a => (a, (exec e o).2)) = _ ↔ _
  rcases exec e o with ⟨e | a, o₁⟩
  · simp [Except.map]
  · simp [Except.map]

theorem addItem_eq_ok {kind : Kind} {name : String}
    (ha : (addItem p index kind name o).result = .ok (h, o')) :
    ∃ o₁, o.create p kind name = .ok (h, o₁) ∧ o₁.attach p index h = .ok o' := by
  unfold addItem at ha
  obtain ⟨_, o₁, hnote, ha⟩ := build_bind_eq_ok.mp ha
  obtain ⟨-, rfl⟩ := Prod.mk.inj (Except.ok.inj hnote)
  obtain ⟨h', o₂, hcreate, ha⟩ := build_bind_eq_ok.mp ha
  obtain ⟨_, o₃, hattach, ha⟩ := build_bind_eq_ok.mp ha
  obtain ⟨rfl, rfl⟩ := Prod.mk.inj (Except.ok.inj ha)
  exact ⟨o₂, Edit.exec_changeWith_eq_ok.mp (edit_eq_ok.mp hcreate),
    Edit.exec_change_eq_ok.mp (edit_eq_ok.mp hattach)⟩

/-- What adding items keeps. -/
def Additive (P : Outline → Prop) : Prop :=
  ∀ ⦃o o' : Outline⦄ ⦃p : Handle⦄ ⦃index : Nat⦄ ⦃kind : Kind⦄ ⦃name : String⦄ ⦃h : Handle⦄,
    P o → (addItem p index kind name o).result = .ok (h, o') → P o'

theorem additive_fresh (document : Option SharedTree) : Additive (Fresh document) := by
  intro o o' p index kind name h f ha
  obtain ⟨o₁, hcreate, hattach⟩ := addItem_eq_ok ha
  exact f.place hcreate hattach

mutual

theorem Additive.addDeclared {P : Outline → Prop} (hP : Additive P) : ∀ (d : Declaration)
    {o o' : Outline} {p : Handle} {index : Nat} {u : Unit}, P o →
      (addDeclared p index d o).result = .ok (u, o') → P o'
  | ⟨kind, name, items⟩, o, o', p, index, u, ho, ha => by
    rw [Description.addDeclared] at ha
    obtain ⟨h, o₁, hitem, hitems⟩ := build_bind_eq_ok.mp ha
    exact hP.addAllDeclared items (hP ho hitem) hitems

theorem Additive.addAllDeclared {P : Outline → Prop} (hP : Additive P) :
    ∀ (ds : List Declaration) {o o' : Outline} {p : Handle} {index : Nat} {u : Unit}, P o →
      (addAllDeclared p index ds o).result = .ok (u, o') → P o'
  | [], o, o', p, index, u, ho, ha => by
    rw [Description.addAllDeclared] at ha
    obtain ⟨-, rfl⟩ := Prod.mk.inj (Except.ok.inj ha)
    exact ho
  | d :: ds, o, o', p, index, u, ho, ha => by
    rw [Description.addAllDeclared] at ha
    obtain ⟨_, o₁, hfirst, hrest⟩ := build_bind_eq_ok.mp ha
    exact hP.addAllDeclared ds (hP.addDeclared d ho hfirst) hrest

end

theorem Additive.addGroups {P : Outline → Prop} (hP : Additive P) {gs : List GroupDeclaration}
    {u : Unit} (ho : P o) (ha : (addGroups index gs o).result = .ok (u, o')) : P o' := by
  induction gs generalizing o index with
  | nil =>
      obtain ⟨-, rfl⟩ := Prod.mk.inj (Except.ok.inj ha)
      exact ho
  | cons g gs ih =>
      rw [Description.addGroups] at ha
      obtain ⟨h, o₁, hgroup, ha⟩ := build_bind_eq_ok.mp ha
      obtain ⟨_, o₂, hitems, hrest⟩ := build_bind_eq_ok.mp ha
      exact ih (hP.addAllDeclared g.items (hP ho hgroup) hitems) hrest

/-- What holds of the outline without items, and is kept by adding them, holds of the outline that is
built from a description. -/
theorem Additive.of_build {P : Outline → Prop} (hP : Additive P) {d : Description}
    (hnew : P (Outline.new d.package document)) (hb : (d.build document).result = .ok o) : P o := by
  unfold build at hb
  rw [Traced.result_bind] at hb
  have hrun : ((Description.addGroups 0 d.groups).run (Outline.new d.package document)).result =
      (Description.addGroups 0 d.groups (Outline.new d.package document)).result := rfl
  rw [hrun] at hb
  rcases hadd : (Description.addGroups 0 d.groups (Outline.new d.package document)).result with
    e | ⟨u, o₁⟩
  · rw [hadd] at hb
    cases hb
  · rw [hadd] at hb
    obtain rfl := Except.ok.inj hb
    exact hP.addGroups hnew hadd

/-- The outline that is built from a description. -/
theorem fresh_of_build {d : Description} (hb : (d.build document).result = .ok o) :
    o.Fresh document :=
  (additive_fresh document).of_build (fresh_new d.package document) hb

end Description

end PackageOutline
