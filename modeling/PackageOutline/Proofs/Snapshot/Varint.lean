import Mathlib.Algebra.Group.Nat.Defs
import PackageOutline.Snapshot.Varint

/-! # Forms of numbers

A number has up to four forms of at most 8 bytes behind a marker (`Varint.Form`).  Reading accepts
each of them and nothing else (`Varint.read_eq_ok_iff`); writing takes one of them
(`Varint.form_write`). -/

namespace PackageOutline

namespace LittleEndian

theorem read_lt (bs : Bytes) : read bs < 256 ^ bs.length := by
  induction bs with
  | nil => simp [read]
  | cons b bs ih =>
      have hb := b.toNat_lt
      rw [read, List.length_cons, Nat.pow_succ]
      omega

theorem write_read (bs : Bytes) : write bs.length (read bs) = bs := by
  induction bs with
  | nil => rfl
  | cons b bs ih =>
      have hb := b.toNat_lt
      have hlow : (b.toNat + 256 * read bs) % 256 = b.toNat := by omega
      have hhigh : (b.toNat + 256 * read bs) / 256 = read bs := by omega
      rw [List.length_cons, read, write, hlow, hhigh, ih, UInt8.ofNat_toNat]

theorem read_write (width n : Nat) : read (write width n) = n % 256 ^ width := by
  induction width generalizing n with
  | zero => simp [write, read, Nat.mod_one]
  | succ width ih =>
    have h : (UInt8.ofNat (n % 256)).toNat = n % 256 := by
      simp [UInt8.toNat_ofNat']
    simp only [write, read, h, ih]
    rw [Nat.pow_succ, Nat.mul_comm (256 ^ width), Nat.mod_mul]

theorem read_write_of_lt {width n : Nat} (h : n < 256 ^ width) : read (write width n) = n := by
  rw [read_write, Nat.mod_eq_of_lt h]

end LittleEndian

namespace Varint

variable {width n size : Nat} {bs rest form : Bytes}

theorem takeBytes_eq_ok_iff {piece : Bytes} :
    takeBytes n bs = .ok (piece, rest) ↔ piece.length = n ∧ bs = piece ++ rest := by
  unfold takeBytes
  constructor
  · intro h
    simp only at h
    split at h
    · rename_i hlen
      cases h
      exact ⟨hlen, (List.take_append_drop n bs).symm⟩
    · cases h
  · rintro ⟨rfl, rfl⟩
    simp

/-- The marker of numbers of two, four or eight bytes. -/
inductive Marks : UInt8 → Nat → Prop where
  | two : Marks 251 2
  | four : Marks 252 4
  | eight : Marks 253 8

/-- A form of a number, of at most `width` bytes behind a marker. -/
inductive Form (width n : Nat) : Bytes → Prop where
  | short (small : n ≤ 250) : Form width n [UInt8.ofNat n]
  | marked {marker : UInt8} {size : Nat} (marks : Marks marker size) (fits : size ≤ width)
      (bound : n < 256 ^ size) : Form width n (marker :: LittleEndian.write size n)

theorem Form.length_pos (h : Form width n form) : 0 < form.length := by
  cases h <;> simp

theorem Form.lt (h : Form width n form) (hw : 0 < width) : n < 256 ^ width := by
  cases h with
  | short small =>
      have hpow : 256 ^ 1 ≤ 256 ^ width := Nat.pow_le_pow_right (by decide) hw
      omega
  | marked marks fits bound =>
      exact Nat.lt_of_lt_of_le bound (Nat.pow_le_pow_right (by decide) fits)

theorem form_write (h : n < 2 ^ 64) : Form 8 n (write n) := by
  unfold write
  split
  · exact .short ‹_›
  · split
    · exact .marked .two (by decide) ‹_›
    · split
      · exact .marked .four (by decide) ‹_›
      · exact .marked .eight (by decide) h

theorem form_write_of_small (h : n ≤ 250) : Form width n (write n) := by
  rw [write, if_pos h]
  exact .short h

theorem readMarked_eq_ok {marker : UInt8} (h : readMarked width marker bs = .ok (n, rest)) :
    ∃ size, Marks marker size ∧ size ≤ width ∧ n < 256 ^ size ∧
      bs = LittleEndian.write size n ++ rest := by
  unfold readMarked at h
  generalize hsize : (if marker = 251 then 2 else if marker = 252 then 4 else
    if marker = 253 then 8 else 0 : Nat) = size at h
  simp only at h
  split at h
  · cases h
  · rename_i hfits
    rw [not_or, Nat.not_lt] at hfits
    cases htake : takeBytes size bs with
    | error e => rw [htake] at h; cases h
    | ok taken =>
        obtain ⟨piece, rest'⟩ := taken
        rw [htake] at h
        cases h
        obtain ⟨hlen, rfl⟩ := takeBytes_eq_ok_iff.mp htake
        have hmarks : Marks marker size := by
          split at hsize
          · subst hsize ‹marker = 251›
            exact .two
          · split at hsize
            · subst hsize ‹marker = 252›
              exact .four
            · split at hsize
              · subst hsize ‹marker = 253›
                exact .eight
              · exact absurd hsize.symm hfits.1
        refine ⟨size, hmarks, hfits.2, hlen ▸ LittleEndian.read_lt piece, ?_⟩
        rw [← hlen, LittleEndian.write_read]

theorem readMarked_append {marker : UInt8} (marks : Marks marker size) (fits : size ≤ width)
    (bound : n < 256 ^ size) (rest : Bytes) :
    readMarked width marker (LittleEndian.write size n ++ rest) = .ok (n, rest) := by
  have htake : takeBytes size (LittleEndian.write size n ++ rest) =
      .ok (LittleEndian.write size n, rest) :=
    takeBytes_eq_ok_iff.mpr ⟨LittleEndian.length_write size n, rfl⟩
  have hread := LittleEndian.read_write_of_lt bound
  have hsize : (if marker = 251 then 2 else if marker = 252 then 4 else
      if marker = 253 then 8 else 0 : Nat) = size := by
    cases marks <;> rfl
  have hfits : ¬ (size = 0 ∨ width < size) := by
    cases marks <;> omega
  unfold readMarked
  simp only [hsize, if_neg hfits, htake, Except.map, hread]

/-- Reading accepts the forms of numbers, and nothing else. -/
theorem read_eq_ok_iff :
    read width bs = .ok (n, rest) ↔ ∃ form, Form width n form ∧ bs = form ++ rest := by
  constructor
  · intro h
    cases bs with
    | nil => cases h
    | cons b bs =>
        rw [read] at h
        split at h
        · rename_i hb
          cases h
          refine ⟨_, .short (UInt8.le_iff_toNat_le.mp hb), ?_⟩
          rw [UInt8.ofNat_toNat]
          rfl
        · obtain ⟨size, marks, fits, bound, rfl⟩ := readMarked_eq_ok h
          exact ⟨_, .marked marks fits bound, rfl⟩
  · rintro ⟨form, hform, rfl⟩
    cases hform with
    | short small =>
        have hb : (UInt8.ofNat n).toNat = n := by
          rw [UInt8.toNat_ofNat']
          omega
        have hle : UInt8.ofNat n ≤ 250 := by
          rw [UInt8.le_iff_toNat_le, hb]
          exact small
        rw [List.singleton_append, read, if_pos hle, hb]
    | marked marks fits bound =>
        have hlarge : ∀ {marker : UInt8} {size : Nat}, Marks marker size → ¬ marker ≤ 250 := by
          intro marker size marks
          cases marks <;> decide
        rw [List.cons_append, read, if_neg (hlarge marks)]
        exact readMarked_append marks fits bound rest

end Varint

end PackageOutline
