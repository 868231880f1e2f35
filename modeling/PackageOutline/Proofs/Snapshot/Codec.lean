import PackageOutline.Proofs.Entries
import PackageOutline.Proofs.Exec
import PackageOutline.Proofs.Snapshot.Varint
import PackageOutline.Proofs.Text.Utf8
import PackageOutline.Proofs.Tree.Listing
import PackageOutline.Snapshot.Codec

/-! # Forms of trees

The bytes of a tree are made of forms of numbers, texts and contents (`NodeForm`).  Reading accepts
exactly these (`readNode_eq_ok_iff`), and gives the tree with repeated names merged (`Tree.merged`):
of several entries of one name the last stays, where it stands.  Writing takes one of the forms if the
sizes fit (`nodeForm_writeNode`). -/

namespace PackageOutline

namespace Tree

variable {α : Type}

mutual

/-- The tree in which, of several entries of one name, the last one stays. -/
def merged : FileTree → FileTree
  | .file _ c => .file () c
  | .dir _ es => .dir () (Entries.lastOnly (mergedAll es))

/-- Some entries, merged below their names. -/
def mergedAll : List (String × FileTree) → List (String × FileTree)
  | [] => []
  | (n, t) :: es => (n, t.merged) :: mergedAll es

end

/-- What a length in a snapshot can be. -/
def maxLength : Nat := 2 ^ 64

mutual

/-- Whether all lengths fit: of contents, of names and of directories. -/
def Sized : Tree α → Prop
  | .file _ c => c.length < maxLength
  | .dir _ es => es.length < maxLength ∧ SizedAll es

/-- Whether all lengths in some entries fit. -/
def SizedAll : List (String × Tree α) → Prop
  | [] => True
  | (n, t) :: es => (Utf8.encode n).length < maxLength ∧ t.Sized ∧ SizedAll es

end

theorem sizedAll_iff {es : List (String × Tree α)} :
    SizedAll es ↔ ∀ e ∈ es, (Utf8.encode e.1).length < maxLength ∧ e.2.Sized := by
  induction es with
  | nil => simp [SizedAll]
  | cons e es ih =>
      obtain ⟨n, t⟩ := e
      simp [SizedAll, ih, and_assoc]

theorem Sized.at? {t u : Tree α} {ns : List String} (s : t.Sized) (hu : t.at? ns = some u) :
    u.Sized := by
  induction ns generalizing t with
  | nil => exact Option.some.inj hu ▸ s
  | cons n ns ih =>
      obtain ⟨v, hv, hbelow⟩ := Option.bind_eq_some_iff.mp hu
      cases t with
      | file l c => cases hv
      | dir l es =>
          rw [Sized] at s
          exact ih (sizedAll_iff.mp s.2 _ (Entries.mem_of_get? hv)).2 hbelow

@[simp] theorem length_mergedAll (es : List (String × FileTree)) :
    (mergedAll es).length = es.length := by
  induction es with
  | nil => rfl
  | cons e es ih => rw [mergedAll, List.length_cons, ih, List.length_cons]

mutual

theorem wellNamed_merged : ∀ t : FileTree, t.merged.WellNamed
  | .file _ _ => by
    rw [merged, WellNamed]
    trivial
  | .dir _ es => by
    rw [merged, WellNamed, wellNamedAll_iff]
    refine ⟨Entries.nodup_keys_lastOnly _, fun e he => ?_⟩
    exact wellNamedAll_iff.mp (wellNamedAll_mergedAll es) e
      ((Entries.lastOnly_sublist _).subset he)

theorem wellNamedAll_mergedAll : ∀ es : List (String × FileTree), WellNamedAll (mergedAll es)
  | [] => by
    rw [mergedAll, WellNamedAll]
    trivial
  | (_, t) :: es => by
    rw [mergedAll, WellNamedAll]
    exact ⟨wellNamed_merged t, wellNamedAll_mergedAll es⟩

end

mutual

/-- Merging changes nothing where no name repeats. -/
theorem merged_of_wellNamed : ∀ t : FileTree, t.WellNamed → t.merged = t
  | .file () _, _ => by rw [merged]
  | .dir () es, w => by
    rw [WellNamed] at w
    rw [merged, mergedAll_of_wellNamed es w.2, Entries.lastOnly_of_nodup w.1]

theorem mergedAll_of_wellNamed : ∀ es : List (String × FileTree), WellNamedAll es →
    mergedAll es = es
  | [], _ => by rw [mergedAll]
  | (n, t) :: es, w => by
    rw [WellNamedAll] at w
    rw [mergedAll, merged_of_wellNamed t w.1, mergedAll_of_wellNamed es w.2]

end

mutual

theorem Sized.merged : ∀ t : FileTree, t.Sized → t.merged.Sized
  | .file _ _, s => by
    rw [Sized] at s
    rwa [Tree.merged, Sized]
  | .dir _ es, s => by
    rw [Sized] at s
    have hsub := Entries.lastOnly_sublist (mergedAll es)
    rw [Tree.merged, Sized, sizedAll_iff]
    refine ⟨Nat.lt_of_le_of_lt hsub.length_le (by rw [length_mergedAll]; exact s.1), ?_⟩
    exact fun e he => sizedAll_iff.mp (SizedAll.mergedAll es s.2) e (hsub.subset he)

theorem SizedAll.mergedAll : ∀ es : List (String × FileTree), SizedAll es →
    SizedAll (mergedAll es)
  | [], _ => by
    rw [Tree.mergedAll, SizedAll]
    trivial
  | (_, t) :: es, s => by
    rw [SizedAll] at s
    rw [Tree.mergedAll, SizedAll]
    exact ⟨s.1, Sized.merged t s.2.1, SizedAll.mergedAll es s.2.2⟩

end

mutual

theorem plain_eq : ∀ t : FileTree, t.plain = t
  | .file () _ => by rw [plain, map]
  | .dir () es => by rw [plain, map, mapAll_eq es]

theorem mapAll_eq : ∀ es : List (String × FileTree), mapAll (fun _ => ()) es = es
  | [] => by rw [mapAll]
  | (_, t) :: es => by
    have ht := plain_eq t
    rw [plain] at ht
    rw [mapAll, ht, mapAll_eq es]

end

end Tree

namespace Snapshot

open Varint (Form)

variable {α : Type} {bs rest : Bytes}

mutual

/-- The bytes that stand for a node. -/
inductive NodeForm : FileTree → Bytes → Prop where
  | file {c kind size : Bytes} (isFile : Form tagWidth 0 kind)
      (length : Form countWidth c.length size) : NodeForm (.file () c) (kind ++ (size ++ c))
  | dir {es : List (String × FileTree)} {kind size body : Bytes} (isDir : Form tagWidth 1 kind)
      (length : Form countWidth es.length size) (entries : EntriesForm es body) :
      NodeForm (.dir () es) (kind ++ (size ++ body))

/-- The bytes that stand for some entries. -/
inductive EntriesForm : List (String × FileTree) → Bytes → Prop where
  | nil : EntriesForm [] []
  | cons {n : String} {t : FileTree} {es : List (String × FileTree)} {size node body : Bytes}
      (length : Form countWidth (Utf8.encode n).length size) (first : NodeForm t node)
      (others : EntriesForm es body) :
      EntriesForm ((n, t) :: es) (size ++ (Utf8.encode n ++ (node ++ body)))

end

/-! ### Writing takes a form -/

theorem form_count {n : Nat} (h : n < Tree.maxLength) : Form countWidth n (Varint.write n) :=
  Varint.form_write h

mutual

theorem nodeForm_writeNode : ∀ t : Tree α, t.Sized → NodeForm t.plain (writeNode t)
  | .file _ c, s => by
    rw [Tree.Sized] at s
    rw [Tree.plain, Tree.map, writeNode, writeBytes]
    exact .file (Varint.form_write_of_small (by decide)) (form_count s)
  | .dir _ es, s => by
    rw [Tree.Sized] at s
    have hlength := form_count s.1
    rw [← Tree.length_mapAll (fun _ => ()) es] at hlength
    rw [Tree.plain, Tree.map, writeNode, ← Tree.length_mapAll (fun _ => ()) es]
    exact .dir (Varint.form_write_of_small (by decide)) hlength (entriesForm_writeEntries es s.2)

theorem entriesForm_writeEntries : ∀ es : List (String × Tree α), Tree.SizedAll es →
    EntriesForm (Tree.mapAll (fun _ => ()) es) (writeEntries es)
  | [], _ => by
    rw [Tree.mapAll, writeEntries]
    exact .nil
  | (n, t) :: es, s => by
    rw [Tree.SizedAll] at s
    rw [Tree.mapAll, writeEntries, writeBytes, List.append_assoc]
    exact .cons (form_count s.1) (nodeForm_writeNode t s.2.1) (entriesForm_writeEntries es s.2.2)

end

/-! ### Lengths that are written fit -/

theorem lt_of_form {n : Nat} {size : Bytes} (h : Form countWidth n size) : n < Tree.maxLength :=
  h.lt (by decide)

mutual

theorem NodeForm.sized : ∀ (t : FileTree) {form : Bytes}, NodeForm t form → t.Sized
  | .file () _, _, .file _ length => by
    rw [Tree.Sized]
    exact lt_of_form length
  | .dir () es, _, .dir _ length entries => by
    rw [Tree.Sized]
    exact ⟨lt_of_form length, EntriesForm.sized es entries⟩

theorem EntriesForm.sized : ∀ (es : List (String × FileTree)) {form : Bytes},
    EntriesForm es form → Tree.SizedAll es
  | [], _, .nil => by
    rw [Tree.SizedAll]
    trivial
  | (_, t) :: es, _, .cons length first others => by
    rw [Tree.SizedAll]
    exact ⟨lt_of_form length, NodeForm.sized t first, EntriesForm.sized es others⟩

end

/-! ### Reading -/

theorem readBytes_eq_ok_iff {c : Bytes} : readBytes bs = .ok (c, rest) ↔
    ∃ size, Form countWidth c.length size ∧ bs = size ++ (c ++ rest) := by
  unfold readBytes
  rw [bind_eq_ok]
  constructor
  · rintro ⟨⟨n, bs'⟩, hread, htake⟩
    obtain ⟨rfl, rfl⟩ := Varint.takeBytes_eq_ok_iff.mp htake
    exact Varint.read_eq_ok_iff.mp hread
  · rintro ⟨size, hsize, rfl⟩
    exact ⟨(c.length, c ++ rest), Varint.read_eq_ok_iff.mpr ⟨size, hsize, rfl⟩,
      Varint.takeBytes_eq_ok_iff.mpr ⟨rfl, rfl⟩⟩

theorem readName_eq_ok_iff {n : String} : readName bs = .ok (n, rest) ↔
    ∃ size, Form countWidth (Utf8.encode n).length size ∧
      bs = size ++ (Utf8.encode n ++ rest) := by
  rw [← readBytes_eq_ok_iff]
  unfold readName
  rw [bind_eq_ok]
  constructor
  · rintro ⟨⟨piece, bs'⟩, hread, hname⟩
    simp only at hname
    split at hname
    · rename_i name hdecode
      obtain ⟨rfl, rfl⟩ := Prod.mk.inj (Except.ok.inj hname)
      rwa [← Utf8.decode_eq_ok_iff.mp hdecode]
    · cases hname
  · intro hread
    refine ⟨_, hread, ?_⟩
    simp only [Utf8.decode_eq_ok_iff.mpr rfl]

theorem readEntries_zero (fuel : Nat) (bs : Bytes) : readEntries fuel 0 bs = .ok ([], bs) := by
  cases fuel <;> rw [readEntries]

mutual

theorem form_of_readNode : ∀ (fuel : Nat) {bs : Bytes} {t : FileTree} {rest : Bytes},
    readNode fuel bs = .ok (t, rest) →
      ∃ raw form, NodeForm raw form ∧ bs = form ++ rest ∧ t = raw.merged
  | 0, _, _, _, h => by
    rw [readNode] at h
    cases h
  | fuel + 1, bs, t, rest, h => by
    rw [readNode, bind_eq_ok] at h
    obtain ⟨⟨kind, bs₁⟩, hkind, h⟩ := h
    obtain ⟨kindForm, hform, rfl⟩ := Varint.read_eq_ok_iff.mp hkind
    simp only at h
    split at h
    · rw [bind_eq_ok] at h
      obtain ⟨⟨c, bs₂⟩, hc, h⟩ := h
      obtain ⟨rfl, rfl⟩ := Prod.mk.inj (Except.ok.inj h)
      obtain ⟨size, hsize, rfl⟩ := readBytes_eq_ok_iff.mp hc
      exact ⟨.file () c, _, .file hform hsize, by simp, by rw [Tree.merged]⟩
    · rw [bind_eq_ok] at h
      obtain ⟨⟨count, bs₂⟩, hcount, h⟩ := h
      rw [bind_eq_ok] at h
      obtain ⟨⟨es, bs₃⟩, hes, h⟩ := h
      obtain ⟨rfl, rfl⟩ := Prod.mk.inj (Except.ok.inj h)
      obtain ⟨size, hsize, rfl⟩ := Varint.read_eq_ok_iff.mp hcount
      obtain ⟨raw, body, hbody, rfl, rfl, rfl⟩ := form_of_readEntries fuel count hes
      refine ⟨.dir () raw, _, .dir hform hsize hbody, by simp, ?_⟩
      rw [Tree.merged, Tree.ofEntries, Entries.ofList_eq]
    · cases h

theorem form_of_readEntries : ∀ (fuel count : Nat) {bs : Bytes} {es : List (String × FileTree)}
    {rest : Bytes}, readEntries fuel count bs = .ok (es, rest) →
      ∃ raw form, EntriesForm raw form ∧ raw.length = count ∧ bs = form ++ rest ∧
        es = Tree.mergedAll raw
  | fuel, 0, bs, es, rest, h => by
    rw [readEntries_zero] at h
    obtain ⟨rfl, rfl⟩ := Prod.mk.inj (Except.ok.inj h)
    exact ⟨[], [], .nil, rfl, rfl, by rw [Tree.mergedAll]⟩
  | 0, count + 1, _, _, _, h => by
    rw [readEntries] at h
    cases h
  | fuel + 1, count + 1, bs, es, rest, h => by
    rw [readEntries, bind_eq_ok] at h
    obtain ⟨⟨n, bs₁⟩, hname, h⟩ := h
    rw [bind_eq_ok] at h
    obtain ⟨⟨t, bs₂⟩, hnode, h⟩ := h
    rw [bind_eq_ok] at h
    obtain ⟨⟨es', bs₃⟩, hes, h⟩ := h
    obtain ⟨rfl, rfl⟩ := Prod.mk.inj (Except.ok.inj h)
    obtain ⟨size, hsize, rfl⟩ := readName_eq_ok_iff.mp hname
    obtain ⟨raw, node, hfirst, rfl, rfl⟩ := form_of_readNode fuel hnode
    obtain ⟨raws, body, hbody, rfl, rfl, rfl⟩ := form_of_readEntries fuel count hes
    exact ⟨(n, raw) :: raws, _, .cons hsize hfirst hbody, rfl, by simp, by rw [Tree.mergedAll]⟩

end

mutual

/-- The bytes of a node are read as this node, merged. -/
theorem readNode_append : ∀ (raw : FileTree) (form : Bytes), NodeForm raw form →
    ∀ fuel, form.length < fuel → ∀ rest, readNode fuel (form ++ rest) = .ok (raw.merged, rest)
  | .file () c, _, @NodeForm.file _ kind size isFile length, fuel + 1, hf, rest => by
    have hkind := Varint.read_eq_ok_iff.mpr ⟨kind, isFile, List.append_assoc kind (size ++ c) rest⟩
    have hc := readBytes_eq_ok_iff.mpr ⟨size, length, List.append_assoc size c rest⟩
    rw [readNode, bind_eq_ok]
    refine ⟨_, hkind, ?_⟩
    simp only
    rw [bind_eq_ok]
    exact ⟨_, hc, by rw [Tree.merged]; rfl⟩
  | .dir () es, _, @NodeForm.dir _ kind size body isDir length entries, fuel + 1, hf, rest => by
    have hkind := Varint.read_eq_ok_iff.mpr
      ⟨kind, isDir, List.append_assoc kind (size ++ body) rest⟩
    have hcount := Varint.read_eq_ok_iff.mpr ⟨size, length, List.append_assoc size body rest⟩
    have hpos := isDir.length_pos
    rw [List.length_append, List.length_append] at hf
    have hes := readEntries_append es body entries fuel (by omega) rest
    rw [readNode, bind_eq_ok]
    refine ⟨_, hkind, ?_⟩
    simp only
    rw [bind_eq_ok]
    refine ⟨_, hcount, ?_⟩
    rw [bind_eq_ok]
    refine ⟨_, hes, ?_⟩
    rw [Tree.merged, Tree.ofEntries, Entries.ofList_eq]
    rfl

theorem readEntries_append : ∀ (raw : List (String × FileTree)) (form : Bytes),
    EntriesForm raw form → ∀ fuel, form.length < fuel → ∀ rest,
      readEntries fuel raw.length (form ++ rest) = .ok (Tree.mergedAll raw, rest)
  | [], _, .nil, fuel, hf, rest => by
    rw [List.length_nil, readEntries_zero, Tree.mergedAll, List.nil_append]
  | (n, t) :: es, _, @EntriesForm.cons _ _ _ size node body length first others, fuel + 1, hf,
      rest => by
    have hpos := length.length_pos
    simp only [List.length_append] at hf
    have hname := readName_eq_ok_iff.mpr ⟨size, length,
      (by simp only [List.append_assoc] : size ++ (Utf8.encode n ++ (node ++ body)) ++ rest =
        size ++ (Utf8.encode n ++ (node ++ (body ++ rest))))⟩
    have hnode := readNode_append t node first fuel (by omega) (body ++ rest)
    have hes := readEntries_append es body others fuel (by omega) rest
    rw [List.length_cons, readEntries, bind_eq_ok]
    refine ⟨_, hname, ?_⟩
    rw [bind_eq_ok]
    refine ⟨_, hnode, ?_⟩
    rw [bind_eq_ok]
    exact ⟨_, hes, by rw [Tree.mergedAll]; rfl⟩

end

/-- A node is read wherever the bytes begin with one of its forms. -/
theorem readNode_eq_ok_iff {fuel : Nat} {t : FileTree} (hf : bs.length < fuel) :
    readNode fuel bs = .ok (t, rest) ↔
      ∃ raw form, NodeForm raw form ∧ bs = form ++ rest ∧ t = raw.merged := by
  refine ⟨form_of_readNode fuel, ?_⟩
  rintro ⟨raw, form, hform, rfl, rfl⟩
  rw [List.length_append] at hf
  exact readNode_append raw form hform fuel (by omega) rest

/-! ### Whole snapshots -/

/-- The bytes that stand for a tree, whatever follows it. -/
inductive Stands (raw : FileTree) : Bytes → Prop where
  | intro {number form rest : Bytes} (current : Form tagWidth version number)
      (node : NodeForm raw form) : Stands raw (number ++ (form ++ rest))

/-- Decoding gives the trees that the bytes stand for, merged. -/
theorem decode_eq_ok_iff {t : FileTree} :
    decode bs = .ok t ↔ ∃ raw, Stands raw bs ∧ t = raw.merged := by
  have hall : ∀ found, readAll bs = .ok (found, t) ↔ ∃ number raw form rest,
      Form tagWidth found number ∧ NodeForm raw form ∧ bs = number ++ (form ++ rest) ∧
        t = raw.merged := by
    intro found
    unfold readAll
    rw [bind_eq_ok]
    constructor
    · rintro ⟨⟨found', bs'⟩, hread, h⟩
      rw [bind_eq_ok] at h
      obtain ⟨⟨t', rest⟩, hnode, h⟩ := h
      obtain ⟨rfl, rfl⟩ := Prod.mk.inj (Except.ok.inj h)
      obtain ⟨number, hnumber, rfl⟩ := Varint.read_eq_ok_iff.mp hread
      obtain ⟨raw, form, hform, rfl, rfl⟩ := (readNode_eq_ok_iff (Nat.lt_succ_self _)).mp hnode
      exact ⟨number, raw, form, rest, hnumber, hform, rfl, rfl⟩
    · rintro ⟨number, raw, form, rest, hnumber, hform, rfl, rfl⟩
      refine ⟨_, Varint.read_eq_ok_iff.mpr ⟨number, hnumber, rfl⟩, ?_⟩
      rw [bind_eq_ok]
      exact ⟨_, (readNode_eq_ok_iff (Nat.lt_succ_self _)).mpr ⟨raw, form, hform, rfl, rfl⟩, rfl⟩
  unfold decode
  constructor
  · intro h
    split at h
    · cases h
    · rename_i found t' hread
      split at h
      · rename_i hversion
        obtain rfl := Except.ok.inj h
        subst hversion
        obtain ⟨number, raw, form, rest, hnumber, hform, rfl, rfl⟩ := (hall version).mp hread
        exact ⟨raw, .intro hnumber hform, rfl⟩
      · cases h
  · rintro ⟨raw, ⟨hnumber, hform⟩, rfl⟩
    have hread := (hall version).mpr ⟨_, raw, _, _, hnumber, hform, rfl, rfl⟩
    simp only [hread, if_true]

/-- A tree whose lengths fit is decoded from its bytes. -/
theorem decode_encode {t : Tree α} (w : t.WellNamed) (s : t.Sized) :
    decode (encode t) = .ok t.plain := by
  have hw : t.plain.WellNamed := (Tree.wellNamed_map_iff _ t).mpr w
  have hstands : Stands t.plain (encode t) := by
    rw [encode, ← List.append_nil (writeNode t)]
    exact .intro (Varint.form_write_of_small (by decide)) (nodeForm_writeNode t s)
  exact decode_eq_ok_iff.mpr ⟨t.plain, hstands, (Tree.merged_of_wellNamed t.plain hw).symm⟩

/-- What is decoded has distinct names, and lengths that fit. -/
theorem wellNamed_of_decode {t : FileTree} (h : decode bs = .ok t) : t.WellNamed ∧ t.Sized := by
  obtain ⟨raw, ⟨-, hform⟩, rfl⟩ := decode_eq_ok_iff.mp h
  exact ⟨Tree.wellNamed_merged raw, Tree.Sized.merged raw (NodeForm.sized raw hform)⟩

end Snapshot

end PackageOutline
