import PackageOutline.Proofs.Snapshot.Varint
import PackageOutline.Snapshot.Frame

/-! # Frames and their content

Reading a frame that was written gives its content (`Frame.read_write`). -/

namespace PackageOutline

namespace Frame

variable {content rest : Bytes}

theorem number_append {n : Nat} {piece : Bytes} (h : piece.length = n) (rest : Bytes) :
    number n (piece ++ rest) = some (LittleEndian.read piece, rest) := by
  subst h
  simp [number]

theorem readHeader_header (rest : Bytes) :
    readHeader (header ++ rest) = some (⟨none, blockLimit⟩, rest) := by
  have hflags : number 1 (header ++ rest) = some (0, 0x38 :: rest) := rfl
  have hwindow : number 1 (0x38 :: rest) = some (56, rest) := rfl
  have hnone : number 0 rest = some (0, rest) := rfl
  have hsingle : ¬ 0 / 32 % 2 = 1 := by decide
  have hdictionary : ([0, 1, 2, 4] : List Nat).getD (0 % 4) 0 = 0 := rfl
  have hsize : ([0, 2, 4, 8] : List Nat).getD (0 / 64) 0 = 0 := rfl
  have hblock : 1 <<< (10 + 56 / 8) + 1 <<< (10 + 56 / 8) / 8 * (56 % 8) = blockLimit := by decide
  unfold readHeader
  simp only [hflags, hwindow, Option.bind_eq_bind, Option.bind_some, if_neg hsingle, hdictionary,
    hsize, hnone, hblock, Nat.min_self]
  rw [if_neg (by decide), if_neg (by decide)]
  rfl

theorem readBlocks_rawBlock {last : Bool} (hc : content.length ≤ blockLimit) (fuel : Nat)
    (rest : Bytes) : readBlocks blockLimit (fuel + 1) (rawBlock last content ++ rest) =
      if last then some (content, rest)
      else (readBlocks blockLimit fuel rest).map fun more => (content ++ more.1, more.2) := by
  unfold blockLimit at hc
  have hsmall : content.length * 8 + (if last then 1 else 0) < 256 ^ 3 := by
    split <;> omega
  have hhead := number_append
    (LittleEndian.length_write 3 (content.length * 8 + if last then 1 else 0)) (content ++ rest)
  rw [LittleEndian.read_write_of_lt hsmall] at hhead
  have hsize : (content.length * 8 + if last then 1 else 0) / 8 = content.length := by
    split <;> omega
  have hkind : (content.length * 8 + if last then 1 else 0) / 2 % 4 = 0 := by
    split <;> omega
  have hlast : (content.length * 8 + if last then 1 else 0) % 2 = 1 ↔ last = true := by
    cases last <;> simp <;> omega
  have hlimit : ¬ blockLimit < content.length := Nat.not_lt.mpr hc
  rw [rawBlock, List.append_assoc, readBlocks, hhead]
  simp only [Option.bind_eq_bind, Option.bind_some, hsize, hkind, hlast, if_neg hlimit,
    List.take_left, List.drop_left, if_true]
  split
  · rfl
  · cases readBlocks blockLimit fuel rest <;> rfl

theorem length_rawBlock (last : Bool) (content : Bytes) : 3 ≤ (rawBlock last content).length := by
  rw [rawBlock, List.length_append, LittleEndian.length_write]
  omega

/-- The blocks of some content hold it. -/
theorem readBlocks_blocks (more : Nat) (content : Bytes)
    (hc : content.length ≤ blockLimit * (more + 1)) (fuel : Nat)
    (hf : (blocks more content).length < fuel) (rest : Bytes) :
    readBlocks blockLimit fuel (blocks more content ++ rest) = some (content, rest) := by
  induction more generalizing content fuel with
  | zero =>
      obtain ⟨fuel, rfl⟩ := Nat.exists_eq_succ_of_ne_zero (Nat.ne_zero_of_lt hf)
      rw [blocks, readBlocks_rawBlock (by omega), if_pos rfl]
  | succ more ih =>
      obtain ⟨fuel, rfl⟩ := Nat.exists_eq_succ_of_ne_zero (Nat.ne_zero_of_lt hf)
      rw [blocks] at hf ⊢
      split
      · rw [readBlocks_rawBlock ‹_›, if_pos rfl]
      · rename_i hlarge
        rw [if_neg hlarge, List.length_append] at hf
        have hhead := length_rawBlock false (content.take blockLimit)
        have hdrop : (content.drop blockLimit).length ≤ blockLimit * (more + 1) := by
          rw [List.length_drop]
          rw [Nat.mul_succ] at hc
          omega
        have hrest := ih (content.drop blockLimit) hdrop fuel (by omega)
        rw [List.append_assoc, readBlocks_rawBlock (List.length_take_le _ _), hrest]
        simp [List.take_append_drop]

/-- Reading a frame that was written gives its content. -/
theorem read_write (content : Bytes) : read (write content) = some content := by
  have hlength : content.length ≤ blockLimit * (content.length + 1) :=
    Nat.le_trans (Nat.le_succ _) (Nat.le_mul_of_pos_left _ (by decide))
  have hblocks := readBlocks_blocks content.length content hlength
    ((blocks content.length content).length + 1) (Nat.lt_succ_self _) []
  rw [List.append_nil] at hblocks
  have hlen : magic.length = 4 := rfl
  have hstart := number_append hlen (header ++ blocks content.length content)
  have hone : readOne (write content) = some (content, []) := by
    rw [write, readOne, hstart]
    simp only [Option.bind_eq_bind, Option.bind_some, if_true, readHeader_header, hblocks]
  have hcons : ∃ b bs, write content = b :: bs := ⟨_, _, rfl⟩
  obtain ⟨b, bs, hbs⟩ := hcons
  rw [hbs] at hone ⊢
  rw [read, if_neg (by simp), List.length_cons, readAll, hone]
  cases bs <;> simp [readAll]

end Frame

end PackageOutline
