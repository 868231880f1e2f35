import PackageOutline.Proofs.Disk.ShortCut
import PackageOutline.Proofs.Outline.Recalling

/-! # Inside the root

No image of an outline leads out of the place that it is written to.

* `Description.callRun_of_build`: an outline that is built from a description is one that calls make,
  and they release nothing.
* `Description.images_inside`: so whatever is called on it, the names in the directories of its images
  are distinct components of paths, and writing an image below a root touches nothing outside, but
  that missing directories on the way to the root are made. -/

namespace PackageOutline

namespace Tree

variable {α : Type}

mutual

/-- The entries of all directories in a tree, its own first. -/
def directories : Tree α → List (List (String × Tree α))
  | .file _ _ => []
  | .dir _ es => es :: directoriesAll es

/-- The entries of all directories in some entries. -/
def directoriesAll : List (String × Tree α) → List (List (String × Tree α))
  | [] => []
  | (_, t) :: es => t.directories ++ directoriesAll es

end

mutual

/-- In every directory of a tree that can be stored, the names are distinct and valid. -/
theorem Storable.directories : ∀ t : Tree α, t.Storable → ∀ es ∈ t.directories,
    (Entries.keys es).Nodup ∧ ∀ n ∈ Entries.keys es, Identifier.isValid n = true
  | .file _ _, _, es, hes => by
    rw [Tree.directories] at hes
    cases hes
  | .dir _ fs, s, es, hes => by
    rw [Storable] at s
    rw [Tree.directories] at hes
    rcases List.mem_cons.mp hes with rfl | hes
    · exact ⟨(storableAll_iff.mp s).1, fun n hn => s.valid hn⟩
    · exact StorableAll.directories fs s es hes

theorem StorableAll.directories : ∀ fs : List (String × Tree α), StorableAll fs →
    ∀ es ∈ directoriesAll fs,
      (Entries.keys es).Nodup ∧ ∀ n ∈ Entries.keys es, Identifier.isValid n = true
  | [], _, es, hes => by
    rw [directoriesAll] at hes
    cases hes
  | (n, t) :: fs, s, es, hes => by
    rw [StorableAll] at s
    obtain ⟨-, -, ht, hfs⟩ := s
    rw [directoriesAll] at hes
    rcases List.mem_append.mp hes with hes | hes
    · exact Storable.directories t ht es hes
    · exact StorableAll.directories fs hfs es hes

end

end Tree

/-! ### Outlines that are built -/

theorem Edit.work_after {α : Type} {e : Edit α} {o o' : Outline} {r : Except Violation α}
    {next : ObjectId} {notices : List Notice} (hx : exec e o = (r, o')) :
    (exec e.work ⟨o, next, notices⟩).2 = ⟨o', next, notices⟩ := by
  have hstate : (exec (e >>= fun _ => pure ()) o).2 = o' := by rw [exec_bind_pure_snd, hx]
  rw [Edit.work, Workspace.exec_edit, exec_adapt, hstate]

namespace Outline

variable {o o' : Outline} {h p : Handle}

theorem released_eq_zero (keep : ∀ {h i}, o.get? h = some i → ∃ j, o'.get? h = some j) :
    o.released o' = 0 := by
  unfold released
  rw [List.length_eq_zero_iff, List.filter_eq_nil_iff]
  intro h hmem
  obtain ⟨i, hi⟩ := mem_live.mp hmem
  obtain ⟨j, hj⟩ := keep hi
  rw [contains, hj]
  simp

theorem released_create {kind : Kind} {name : String} (e : o.FreeExact)
    (hc : o.create p kind name = .ok (h, o')) : o.released o' = 0 := by
  refine released_eq_zero fun {x i} hi => ?_
  obtain ⟨g, -⟩ := e.allocate (create_eq_ok hc).2
  exact ⟨i, g.elsewhere hi⟩

theorem released_attach {index : Nat} (ha : o.attach p index h = .ok o') : o.released o' = 0 := by
  refine released_eq_zero fun {x i} hi => ?_
  obtain ⟨_, j, -, -, hj, -, -, -, rfl⟩ := attach_eq_ok ha
  rw [get?_set hj]
  split
  · exact ⟨_, rfl⟩
  · exact ⟨i, hi⟩

end Outline

namespace Description

open Outline

variable {d : Description} {document : Option SharedTree} {o : Outline} {next : ObjectId}
  {notices : List Notice}

/-- Calls lead to the outline, and release nothing on the way. -/
def Called (next : ObjectId) (notices : List Notice) (o : Outline) : Prop :=
  CallRun (fun _ _ => True) 0 ⟨o, next, notices⟩

theorem additive_called (next : ObjectId) (notices : List Notice) :
    Additive (Called next notices) := by
  intro o o' p index kind name h run ha
  obtain ⟨o₁, hcreate, hattach⟩ := addItem_eq_ok ha
  have w := (run.upheld (Tended.upheld _) (by decide)).tree
  have create : (Call.create p kind name).after ⟨o, next, notices⟩ = ⟨o₁, next, notices⟩ :=
    Edit.work_after (e := .create p kind name) (Edit.exec_changeWith_eq_ok.mpr hcreate)
  have attach : (Call.attach p index h).after ⟨o₁, next, notices⟩ = ⟨o', next, notices⟩ :=
    Edit.work_after (e := .attach p index h) (Edit.exec_change_eq_ok.mpr hattach)
  have run₁ := run.call (.create p kind name) trivial
  rw [create, released_create w.free hcreate] at run₁
  have run₂ := run₁.call (.attach p index h) trivial
  rwa [attach, released_attach hattach] at run₂

/-- An outline that is built from a description is one that calls make. -/
theorem callRun_of_build (hb : (d.build document).result = .ok o) (next : ObjectId)
    (notices : List Notice) : CallRun (fun _ _ => True) 0 ⟨o, next, notices⟩ :=
  (additive_called next notices).of_build (.start d.package document next notices) hb

/-! ### Images and their writing -/

/-- Whatever is called on the outline of a description: at any depth of its images, the names in a
directory are distinct, and each is one component of a path.  When an image is written to a root, then
however this ends, only places of the image are touched, which lie at or below the root; and if the
root is not there, missing directories on the way to it are made. -/
theorem images_inside (hb : (d.build document).result = .ok o) {calls : List Call} {k : Nat}
    {W : Workspace}
    (hplay : calls.foldlM (Call.next? fun _ _ => True) (0, ⟨o, next, notices⟩) = some (k, W))
    (hk : k < 2 ^ 32) {held : List SharedTree} {h : Handle} {t : SharedTree}
    (ht : (exec (Workspace.image held h) W).1 = .ok t ∨
      (exec (Workspace.refresh held h) W).1 = .ok (some t)) :
    (∀ es ∈ t.directories, (Entries.keys es).Nodup ∧
      ∀ n ∈ Entries.keys es, n ≠ "" ∧ n ≠ "." ∧ n ≠ ".." ∧ '/' ∉ n.toList) ∧
    ∀ {β : Type} (root : Path) (previous : Option (Tree β)) (s : Disk.Log) (place : List Bytes),
      let disk := (exec (Disk.writeTree t root previous) s).2.disk
      disk.view place ≠ s.disk.view place →
        (∃ ns u, t.at? ns = some u ∧ place = root.place ++ ns.map Utf8.encode) ∨
          t.isDir = true ∧ root.OnWay place ∧ s.disk.isDir root = false ∧
            s.disk.view place = .nothing ∧ disk.view place = .directory := by
  have run : CallRun (fun _ _ => True) k W :=
    (callRun_of_build hb next notices).play (s := (0, ⟨o, next, notices⟩)) hplay
  have stowed := run.stowed hk
  have st : t.Storable := by
    rcases ht with ht | ht
    · exact (Workspace.ensures_image h (Prod.eta (exec _ W)).symm stowed).2 t ht
    · exact (Workspace.ensures_refresh h (Prod.eta (exec _ W)).symm stowed).2 _ ht t rfl
  refine ⟨fun es hes => ?_, fun root previous s place hchanged => ?_⟩
  · obtain ⟨hnodup, hvalid⟩ := Tree.Storable.directories t st es hes
    exact ⟨hnodup, fun n hn => Identifier.isValid_iff.mp (hvalid n hn)⟩
  · have inside : ∀ {ns u}, t.at? ns = some u → ∃ ns u, t.at? ns = some u ∧
        (root.below ns).place = root.place ++ ns.map Utf8.encode := fun hu =>
      ⟨_, _, hu, root.place_below (st.names hu)⟩
    have a := Disk.exec_writeWith_altered _ t st
      (Prod.eta (exec (Disk.writeTree t root previous) s)).symm
    rcases a place with hsame | ⟨c, ⟨ns, hc, rfl⟩, -, -⟩ |
      ⟨⟨hdir, hway⟩ | ⟨ns, u, hu, -, rfl⟩, hnone, hmade⟩
    · exact absurd hsame hchanged
    · obtain ⟨u, hu, -⟩ := Option.bind_eq_some_iff.mp hc
      exact .inl ⟨ns, u, hu, root.place_below (st.names hu)⟩
    · refine .inr ⟨hdir, hway, Bool.eq_false_iff.mpr fun hthere => ?_, hnone, hmade⟩
      rw [Disk.view_onWay hthere hway] at hnone
      cases hnone
    · exact .inl ⟨ns, u, hu, root.place_below (st.names hu)⟩

/-- A folder that gets another name, and one that is refused: its file is written below that name, and
nothing else. -/
theorem images_inside_of_rename :
    let d : Description := ⟨"P", [⟨"Package", [⟨.folder, "d", [⟨.file, "x", []⟩]⟩]⟩]⟩
    let calls : List Call := [.setContents ⟨3, 0⟩ [1], .rename ⟨2, 0⟩ "e", .rename ⟨2, 0⟩ ".."]
    let root : Path := .ofString "r"
    let s : Disk.Log := { disk := { top := .dir [] } }
    ∃ (o : Outline) (W : Workspace) (t : SharedTree), (d.build none).result = .ok o ∧
      calls.foldlM (Call.next? fun _ _ => True) (0, ⟨o, 0, []⟩) = some (0, W) ∧
      (exec (Workspace.refresh [] Outline.root) W).1 = .ok (some t) ∧
      t.directories.map Entries.keys = [["e"], ["x"]] ∧
      (∀ es ∈ t.directories, (Entries.keys es).Nodup ∧
        ∀ n ∈ Entries.keys es, n ≠ "" ∧ n ≠ "." ∧ n ≠ ".." ∧ '/' ∉ n.toList) ∧
      (exec (Disk.writeTree t root (none : Option SharedTree)) s).2.disk.view
        [[114], [101], [120]] = .file [1] ∧
      ∀ place, (exec (Disk.writeTree t root (none : Option SharedTree)) s).2.disk.view place ≠
          s.disk.view place →
        (∃ ns u, t.at? ns = some u ∧ place = root.place ++ ns.map Utf8.encode) ∨
          t.isDir = true ∧ root.OnWay place ∧ s.disk.isDir root = false ∧
            s.disk.view place = .nothing ∧
            (exec (Disk.writeTree t root (none : Option SharedTree)) s).2.disk.view place =
              .directory := by
  intro d calls root s
  obtain ⟨⟨o, ⟨k, W⟩, t⟩, hall, htest⟩ := (Option.any_eq_true ..).mp (show
    ((d.build none).result.toOption.bind fun o =>
      (calls.foldlM (Call.next? fun _ _ => True) (0, ⟨o, 0, []⟩)).bind fun q =>
        ((exec (Workspace.refresh [] Outline.root) q.2).1.toOption.bind id).map fun t =>
          (o, q, t)).any (fun x => decide (x.2.1.1 = 0 ∧
            x.2.2.directories.map Entries.keys = [["e"], ["x"]] ∧
            (exec (Disk.writeTree x.2.2 root (none : Option SharedTree)) s).2.disk.view
              [[114], [101], [120]] = .file [1])) = true by decide +kernel)
  obtain ⟨hk, hnames, hfile⟩ := of_decide_eq_true htest
  obtain ⟨o', hb, hall⟩ := Option.bind_eq_some_iff.mp hall
  obtain ⟨q, hplay, hall⟩ := Option.bind_eq_some_iff.mp hall
  obtain ⟨t', ht, heq⟩ := Option.map_eq_some_iff.mp hall
  cases heq
  obtain ⟨r, hr, rfl⟩ := Option.bind_eq_some_iff.mp ht
  obtain rfl : k = 0 := hk
  have hb := toOption_eq_some.mp hb
  have ht := toOption_eq_some.mp hr
  obtain ⟨hinside, hwrite⟩ := images_inside hb hplay (by decide) (.inr ht)
  exact ⟨o, W, _, hb, hplay, ht, hnames, hinside, hfile, fun place => hwrite root none s place⟩

/-- The image of a package without items, written to a root that is not there, makes the directory
that the root lies in. -/
theorem directory_above_is_made :
    let o := Outline.new "p"
    let root : Path := .ofString "x/y"
    let s : Disk.Log := { disk := { top := .dir [] } }
    ∃ t : SharedTree, ((⟨"p", []⟩ : Description).build none).result = .ok o ∧
      (exec (Workspace.image [] Outline.root) ⟨o, 0, []⟩).1 = .ok t ∧
      (exec (Disk.writeTree t root (none : Option SharedTree)) s).1 = .ok {} ∧
      s.disk.view [[120]] = .nothing ∧
      (exec (Disk.writeTree t root (none : Option SharedTree)) s).2.disk.view [[120]] = .directory ∧
      ∀ ns : List String, [[120]] ≠ root.place ++ ns.map Utf8.encode := by
  intro o root s
  refine ⟨.dir 0 [], rfl, rfl, toOption_eq_some.mp (by decide +kernel), by decide +kernel,
    by decide +kernel, fun ns h => ?_⟩
  have hplace : root.place = [[120], [121]] := by decide +kernel
  have hlength := congrArg List.length h
  rw [hplace, List.length_append] at hlength
  simp only [List.length_cons, List.length_nil] at hlength
  omega

end Description

end PackageOutline
