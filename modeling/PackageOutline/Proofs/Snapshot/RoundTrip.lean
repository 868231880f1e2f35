import PackageOutline.Proofs.Snapshot.Codec
import PackageOutline.Proofs.Snapshot.Frame

/-! # Packing and unpacking

Whatever way of compressing is used, as long as decompressing undoes it: a tree that is packed is
unpacked again as it was, and what can be unpacked survives being packed once more
(`Snapshot.roundTrip`). -/

namespace PackageOutline

namespace Snapshot

variable {α : Type} {compress : Bytes → Bytes} {decompress : Bytes → Option Bytes} {bs : Bytes}

theorem unpackWith_eq_ok_iff {t : FileTree} : unpackWith decompress bs = .ok t ↔
    ∃ content, decompress bs = some content ∧ decode content = .ok t := by
  unfold unpackWith
  cases decompress bs <;> simp

/-- A tree in which no name repeats and whose lengths fit is unpacked as it was packed. -/
theorem unpackWith_packWith (undo : ∀ bs, decompress (compress bs) = some bs) {t : Tree α}
    (w : t.WellNamed) (s : t.Sized) : unpackWith decompress (packWith compress t) = .ok t.plain :=
  unpackWith_eq_ok_iff.mpr ⟨encode t, undo (encode t), decode_encode w s⟩

/-- Packing a tree and unpacking it gives the tree, its entries in order.  What can be unpacked has
distinct names in every directory, being what the bytes stand for with repeated names merged, and is
unpacked again as it is packed. -/
theorem roundTrip (undo : ∀ bs, decompress (compress bs) = some bs) :
    (∀ {α : Type} (t : Tree α), t.WellNamed → t.Sized →
      unpackWith decompress (packWith compress t) = .ok t.plain) ∧
    (∀ bs t, unpackWith decompress bs = .ok t →
      t.WellNamed ∧ unpackWith decompress (packWith compress t) = .ok t) ∧
    ∀ bs t, unpackWith decompress bs = .ok t ↔
      ∃ content raw, decompress bs = some content ∧ Stands raw content ∧ t = raw.merged := by
  refine ⟨fun t w s => unpackWith_packWith undo w s, fun bs t h => ?_, fun bs t => ?_⟩
  · obtain ⟨content, -, hcontent⟩ := unpackWith_eq_ok_iff.mp h
    obtain ⟨w, s⟩ := wellNamed_of_decode hcontent
    refine ⟨w, ?_⟩
    rw [unpackWith_packWith undo w s, Tree.plain_eq]
  · rw [unpackWith_eq_ok_iff]
    refine exists_congr fun content => ?_
    rw [decode_eq_ok_iff, exists_and_left]

/-- An empty name, an empty directory, an empty file and a file whose length takes a marker; and a
directory that comes with a name twice. -/
theorem roundTrip_of_frames :
    let t : FileTree := .dir () [("", .dir () []), ("b", .file () (List.replicate 300 7)),
      ("a", .dir () [("é", .file () [])])]
    let bs : Bytes := Frame.write
      [1, 1, 3, 1, 97, 0, 1, 5, 1, 98, 0, 0, 1, 97, 251, 0, 0, 252, 2, 0, 0, 0, 6, 7]
    let u : FileTree := .dir () [("b", .file () []), ("a", .file () [6, 7])]
    t.WellNamed ∧ t.Sized ∧ unpack (pack t) = .ok t ∧ unpack bs = .ok u ∧ unpack (pack u) = .ok u := by
  intro t bs u
  have hframe := roundTrip Frame.read_write
  have w : t.WellNamed := by
    simp only [t, Tree.WellNamed, Tree.WellNamedAll, Entries.keys]
    decide
  have s : t.Sized := by
    simp only [t, Tree.Sized, Tree.SizedAll]
    decide +kernel
  have hu : unpack bs = .ok u := rfl
  exact ⟨w, s, hframe.1 t w s, hu, (hframe.2.1 bs u hu).2⟩

end Snapshot

end PackageOutline
