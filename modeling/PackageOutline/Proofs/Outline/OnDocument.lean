import PackageOutline.Proofs.Description.Building
import PackageOutline.Proofs.Outline.PathEdits

/-! # Outlines on other documents

Building an outline does not look at the document, so a description gives the same outline on any
(`Description.build_onDocument`).

When a file of an outline that nobody worked on was given contents and the image of the root was made,
then on a document with the same files elsewhere the image is the same exactly if that document has the
contents at the path of the file (`Fresh.plainImage_onDocument`), and cannot be made if it has no file
there (`Fresh.missing_onDocument`). -/

namespace PackageOutline

/-- An outline on another document. -/
def Outline.onDocument (o : Outline) (document : Option SharedTree) : Outline := { o with document }

/-! ### Building -/

namespace Outline

variable {o o' : Outline} {h p : Handle} {i : Item} {index : Nat} {kind : Kind} {name : String}

theorem allocate_onDocument (o : Outline) (i : Item) (document : Option SharedTree) :
    (o.onDocument document).allocate i =
      (o.allocate i).map fun r => (r.1, r.2.onDocument document) := by
  obtain ⟨slots, free, old⟩ := o
  cases free with
  | nil =>
      unfold allocate onDocument
      simp only
      split <;> rfl
  | cons index free => rfl

theorem create_onDocument (hc : o.create p kind name = .ok (h, o'))
    (document : Option SharedTree) :
    (o.onDocument document).create p kind name = .ok (h, o'.onDocument document) := by
  obtain ⟨hplacement, hallocate⟩ := create_eq_ok hc
  obtain ⟨hvalid, hgroup, j, hj, hadmits⟩ := checkPlacement_eq_ok hplacement
  have hcreate := Description.create_of (o := o.onDocument document) hvalid hgroup hj hadmits
  rw [hcreate, allocate_onDocument, hallocate]
  rfl

theorem attach_onDocument (ha : o.attach p index h = .ok o') (document : Option SharedTree) :
    (o.onDocument document).attach p index h = .ok (o'.onDocument document) := by
  obtain ⟨i, j, hi, hp, hj, hmem, hindex, hsiblings, rfl⟩ := attach_eq_ok ha
  obtain ⟨j', hj', hnames⟩ := checkSiblings_eq_ok hsiblings
  rw [hj] at hj'
  obtain rfl := Option.some.inj hj'
  exact attach_of (o := o.onDocument document) hi hp hj hmem hindex
    fun c hc k hk => hnames hc (Option.some_ne_none c) hk

end Outline

namespace Description

open Outline

variable {α β : Type} {o o' : Outline} {h p : Handle}

/-- Whether a part of building does not look at the document. -/
def Oblivious (x : Build α) : Prop :=
  ∀ ⦃o o' : Outline⦄ ⦃a : α⦄, (x o).result = .ok (a, o') → ∀ document,
    (x (o.onDocument document)).result = .ok (a, o'.onDocument document)

theorem Oblivious.pure (a : α) : Oblivious (Pure.pure a) := by
  intro o o' a' h document
  obtain ⟨rfl, rfl⟩ := Prod.mk.inj (Except.ok.inj h)
  rfl

theorem Oblivious.bind {x : Build α} {f : α → Build β} (hx : Oblivious x)
    (hf : ∀ a, Oblivious (f a)) : Oblivious (x >>= f) := by
  intro o o' b h document
  obtain ⟨a, o₁, hfirst, hrest⟩ := build_bind_eq_ok.mp h
  exact build_bind_eq_ok.mpr ⟨a, _, hx hfirst document, hf a hrest document⟩

theorem oblivious_addItem (parent : Handle) (index : Nat) (kind : Kind) (name : String) :
    Oblivious (addItem parent index kind name) := by
  intro o o' h ha document
  obtain ⟨o₁, hcreate, hattach⟩ := addItem_eq_ok ha
  exact addItem_of (create_onDocument hcreate document) (attach_onDocument hattach document)

mutual

theorem oblivious_addDeclared : ∀ (d : Declaration) (parent : Handle) (index : Nat),
    Oblivious (addDeclared parent index d)
  | ⟨kind, name, items⟩, parent, index => by
    rw [addDeclared]
    exact (oblivious_addItem parent index kind name).bind fun h =>
      oblivious_addAllDeclared items h 0

theorem oblivious_addAllDeclared : ∀ (ds : List Declaration) (parent : Handle) (index : Nat),
    Oblivious (addAllDeclared parent index ds)
  | [], parent, index => by
    rw [addAllDeclared]
    exact .pure ()
  | d :: ds, parent, index => by
    rw [addAllDeclared]
    exact (oblivious_addDeclared d parent index).bind fun _ =>
      oblivious_addAllDeclared ds parent (index + 1)

end

/-- A description gives the same outline on any document. -/
theorem build_onDocument {d : Description} {document : Option SharedTree}
    (hb : (d.build document).result = .ok o) (document' : Option SharedTree) :
    (d.build document').result = .ok (o.onDocument document') := by
  rw [build_result] at hb ⊢
  rcases hadd : (addAllDeclared Outline.root 0 d.items (Outline.new d.package document)).result with
    v | ⟨u, o₁⟩
  · rw [hadd] at hb
    cases hb
  · rw [hadd] at hb
    obtain rfl := Except.ok.inj hb
    have hrun := oblivious_addAllDeclared d.items Outline.root 0 hadd document'
    exact congrArg (Except.map Prod.snd) hrun

end Description

namespace Outline

variable {o : Outline} {h x : Handle} {i j : Item} {c : Bytes} {d d' : Option SharedTree}
  {t : SharedTree}

/-! ### Images -/

theorem Fresh.onDocument (f : o.Fresh d) (d' : Option SharedTree) : (o.onDocument d').Fresh d' := by
  have ag : ∀ {β : Type} (g : Item → β), AgreeOn g o (o.onDocument d') :=
    fun _ => ⟨rfl, rfl, fun _ => rfl⟩
  exact ⟨f.tree.congr (ag _), f.attached.congr (ag _), rfl, f.idle⟩

theorem Fresh.data (f : o.Fresh d) (hi : o.get? h = some i) :
    o.data h = (d.bind (·.find? (o.diskPath h))).bind Tree.contents? := by
  unfold Outline.data
  rw [hi, Option.bind_some, (f.idle hi).2.2, f.document]

theorem Fresh.stays (f : o.Fresh d) (d' : Option SharedTree) (hi : o.get? h = some i) :
    Stays o (o.onDocument d') h := by
  obtain ⟨l, hl⟩ := f.tree.exists_line f.attached hi
  exact f.tree.stays (f.onDocument d').tree hl fun _ _ => rfl

/-- The document has the same files as another, but for one path. -/
def SameFilesBut (names : List String) (d d' : Option SharedTree) : Prop :=
  ∀ ns c, ns ≠ names → (d.bind (·.find? ns)).bind Tree.contents? = some c →
    (d'.bind (·.find? ns)).bind Tree.contents? = some c

section

variable (f : o.Fresh d) (hi : o.get? h = some i) (hk : i.kind = .file)
  (ht : (o.set h { i with contents := some c }).plainImage Outline.root = .ok t.plain)
  (hsame : SameFilesBut (o.diskPath h) d d')

include f hi ht

theorem Fresh.complete_set : (o.set h { i with contents := some c }).WellFormed ∧
    (o.set h { i with contents := some c }).Attached ∧
    (o.set h { i with contents := some c }).Complete := by
  have ag : AgreeOn Item.frame o (o.set h { i with contents := some c }) := .set hi rfl
  have w := f.tree.congr ag
  have a := f.attached.congr ag.links
  exact ⟨w, a, w.complete_of_plainImage a ht⟩

/-- Of two folders or files, each has a path of its own. -/
theorem Fresh.eq_of_diskPath (hx : o.get? x = some j) {y : Handle} {k : Item}
    (hy : o.get? y = some k) (hdx : o.isOnDisk x = true) (hdy : o.isOnDisk y = true)
    (hpath : o.diskPath x = o.diskPath y) : x = y := by
  obtain ⟨w, a, complete⟩ := f.complete_set hi ht
  have mem : ∀ {x j}, o.get? x = some j → o.isOnDisk x = true →
      x ∈ (o.set h { i with contents := some c }).onDisk Outline.root := by
    intro x j hj hdisk
    have st := (f.tree.stays_setContents f.attached hi c hj).1
    have hlive : ∃ k, (o.set h { i with contents := some c }).get? x = some k := by
      rw [get?_set hi]
      split
      · exact ⟨_, rfl⟩
      · exact ⟨j, hj⟩
    obtain ⟨k, hk⟩ := hlive
    exact (w.mem_onDisk_root_iff a).mpr ⟨w.reachable a hk, st.onDisk.trans hdisk⟩
  refine complete.paths_of_diskPath w a (mem hx hdx) (mem hy hdy) ?_
  rw [(f.tree.stays_setContents f.attached hi c hx).1.path,
    (f.tree.stays_setContents f.attached hi c hy).1.path, hpath]

include hk

/-- The image with the contents has them at the path of the file. -/
theorem Fresh.find?_set : (t.find? (o.diskPath h)).bind Tree.contents? = some c := by
  obtain ⟨w, a, -⟩ := f.complete_set hi ht
  obtain ⟨st, hdata⟩ := f.tree.stays_setContents f.attached hi c hi
  rw [if_pos rfl] at hdata
  rw [← st.path]
  exact w.find?_of_data a ht (get?_set_self hi _) hk hdata

include hsame

theorem Fresh.data_onDocument (hj : o.get? x = some j) (hfile : j.kind = .file) (hx : x ≠ h) :
    ∃ b, o.data x = some b ∧ (o.onDocument d').data x = some b := by
  obtain ⟨w, a, complete⟩ := f.complete_set hi ht
  obtain ⟨st, hdata⟩ := f.tree.stays_setContents f.attached hi c hj
  have hisFile : o.isFile x = true := (isFile_iff hj).mpr hfile
  have hget := (get?_set_of_ne hi { i with contents := some c } hx).trans hj
  obtain ⟨b, hb⟩ := complete.data (w.reachable a hget) (st.file.trans hisFile)
  rw [hdata, if_neg hx] at hb
  refine ⟨b, hb, ?_⟩
  rw [f.data hj] at hb
  rw [(f.onDocument d').data hj, (f.stays d' hj).path]
  refine hsame _ b (fun hpath => hx ?_) hb
  refine f.eq_of_diskPath hi ht hj hi (isOnDisk_of_isFile hisFile) ?_ hpath
  rw [isOnDisk_eq hi, hk]
  rfl

/-- The image of the root is the same as with contents for one file exactly if the other document has
these at its path. -/
theorem Fresh.plainImage_onDocument : (o.onDocument d').plainImage Outline.root = .ok t.plain ↔
    (d'.bind (·.find? (o.diskPath h))).bind Tree.contents? = some c := by
  obtain ⟨w, a, -⟩ := f.complete_set hi ht
  have f' := f.onDocument d'
  obtain ⟨-, hdata⟩ := f.tree.stays_setContents f.attached hi c hi
  rw [if_pos rfl] at hdata
  have hdata' := f'.data hi
  rw [(f.stays d' hi).path] at hdata'
  rw [← hdata']
  constructor
  · intro ht'
    have complete' := f'.tree.complete_of_plainImage f'.attached ht'
    have hfile := (f.stays d' hi).file.trans ((isFile_iff hi).mpr hk)
    obtain ⟨b, hb⟩ := complete'.data (f'.tree.reachable f'.attached hi) hfile
    have hfound := f'.tree.find?_of_data f'.attached ht' hi hk hb
    rw [(f.stays d' hi).path, f.find?_set hi hk ht] at hfound
    rw [hb, hfound]
  · intro hc
    obtain ⟨r, hr, -⟩ := w.root
    refine plainImage_keeps w f'.tree hr (fun z hz => ?_) ht
    obtain ⟨k, hget⟩ := hz.live hr
    rcases of_get?_set hi hget with ⟨rfl, rfl⟩ | ⟨hz, hgetz⟩
    · refine ⟨_, i, hget, hi, rfl, rfl, rfl, fun _ b hb => ?_⟩
      rw [hdata] at hb
      rw [hc, hb]
    · refine ⟨k, k, hget, hgetz, rfl, rfl, rfl, fun hfile b hb => ?_⟩
      rw [(f.tree.stays_setContents f.attached hi c hgetz).2, if_neg hz] at hb
      obtain ⟨b', hb', hdata'⟩ := f.data_onDocument hi hk ht hsame hgetz hfile hz
      rw [hdata', ← hb', hb]

/-- Where the other document has no file, the image of the root cannot be made for want of it. -/
theorem Fresh.missing_onDocument
    (hnone : (d'.bind (·.find? (o.diskPath h))).bind Tree.contents? = none) :
    (o.onDocument d').plainImage Outline.root =
      .error (.error (.missingData (.ofNames (o.diskPath h)))) := by
  have f' := f.onDocument d'
  have hdata' := f'.data hi
  rw [(f.stays d' hi).path, hnone] at hdata'
  obtain ⟨r, hr, -⟩ := f'.tree.root
  have live : ∀ {x}, x ∈ (o.onDocument d').onDisk Outline.root →
      ∃ j, o.get? x = some j ∧ o.isOnDisk x = true := by
    intro x hx
    obtain ⟨hreach, hdisk⟩ := (f'.tree.mem_onDisk_root_iff f'.attached).mp hx
    obtain ⟨j, hj⟩ := f'.tree.live_of_reachable hreach
    exact ⟨j, hj, hdisk⟩
  cases hp : (o.onDocument d').plainImage Outline.root with
  | ok u =>
      have hfile := (f.stays d' hi).file.trans ((isFile_iff hi).mpr hk)
      have hself := (f'.tree.mem_family_root f'.attached).mpr (f'.tree.reachable f'.attached hi)
      exact absurd hdata' (f'.tree.data_of_plainImage hr hp h hself hfile)
  | error e =>
      cases f'.tree.plainImage_error f'.attached hr hp with
      | @missing x hx hfile hmissing =>
          obtain ⟨j, hj, -⟩ := live hx
          have hkind := (isFile_iff hj).mp ((f.stays d' hj).file.symm.trans hfile)
          by_cases hxh : x = h
          · rw [hxh, (f.stays d' hi).path]
          · obtain ⟨b, -, hb⟩ := f.data_onDocument hi hk ht hsame hj hkind hxh
            rw [hb] at hmissing
            cases hmissing
      | conflict hx hy hne hpath =>
          obtain ⟨j, hj, hdx⟩ := live hx
          obtain ⟨k, hk', hdy⟩ := live hy
          rw [(f.stays d' hj).path, (f.stays d' hk').path] at hpath
          exact absurd (f.eq_of_diskPath hi ht hj hk' hdx hdy hpath) hne

end

end Outline

end PackageOutline
